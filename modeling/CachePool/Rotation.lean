import CachePool.Refill

/-!
# Widths of the shift amounts (`gen_scramble`, `bank_addr_scramble`, `l1d_xbar_config`)

Every shift amount and every part-select base is a sum or a difference of narrow signals, evaluated in the
width of its widest operand.

* `l1dXbarConfig`, `xbarOffset` — the offset the runtime writes, and the five bits the register keeps.
* `AmountsExact` — every amount of a bank's two paths is its mathematical value.
* `RotatesBanks` — the rotation is a bijection from the addresses with a routing field to the rotated
  addresses with that field at the top.
* `SumFits` — the sum of offset and routing bits fits its width; `amountsExact_iff`, `rotatesBanks_iff` — each
  of the two holds exactly then.
-/

set_option autoImplicit false

namespace CachePool

/-- What `l1d_xbar_config` writes: the cacheline width is the least offset. -/
def l1dXbarConfig (offset : BitVec 32) : BitVec 32 := if 6#32 < offset then offset else 6#32

/-- `xbar_offset_q` after the commit. -/
def xbarOffset (x : BitVec 32) : BitVec 5 := x.setWidth 5

namespace Rotation

open Interco Refill

section

variable (P : Params) (cfg : PartCfg)

/-- `dynamic_offset_i + CacheBankBits` as a part-select base; the parameter makes it 32 bits wide. -/
def tileBase : Nat := (cfg.dynamicOffset.toNat + P.cacheBankBits) % 2 ^ 32

/-- **Every amount is exact** on the request path and the refill path of bank `cb`. -/
structure AmountsExact (cb : Nat) : Prop where
  rotate_bank : P.cacheBankBits % 2 ^ P.rotWidth = P.cacheBankBits
  rotate_both : (P.cacheBankBits + P.tileBits) % 2 ^ P.rotWidth = P.cacheBankBits + P.tileBits
  tile_base : tileBase P cfg = cfg.dynamicOffset.toNat + P.cacheBankBits
  hole : shiftSum P cfg (bitsToRotate P cfg cb) = cfg.dynamicOffset.toNat + bitsToRotate P cfg cb
  park : (subU32 32 (bitsToRotate P cfg cb) : Int) = 32 - bitsToRotate P cfg cb
  refill_park : (subU32 32 (refillBitsToRotate P cfg cb) : Int) = 32 - refillBitsToRotate P cfg cb
  refill_mask : (subU32 (subU32 32 cfg.dynamicOffset.toNat) (refillBitsToRotate P cfg cb) : Int) =
    32 - cfg.dynamicOffset.toNat - refillBitsToRotate P cfg cb
  refill_hole :
    shiftSum P cfg (refillBitsToRotate P cfg cb) = cfg.dynamicOffset.toNat + refillBitsToRotate P cfg cb

/-- **The rotation loses no address**: whatever the routing field. -/
def RotatesBanks (cb : Nat) : Prop :=
  ∀ r, Set.BijOn (genScramble P cfg cb)
    {a | BitField.fieldAt cfg.dynamicOffset.toNat (bitsToRotate P cfg cb) a = r}
    {b | BitField.topField (bitsToRotate P cfg cb) b = r}

/-- The routing field ends below the top of the address, or the sum is formed in more than five bits. -/
def SumFits (n : Nat) : Prop := cfg.dynamicOffset.toNat + n < 32 ∨ 6 ≤ P.rotWidth

instance (n : Nat) : Decidable (SumFits P cfg n) := by
  unfold SumFits
  infer_instance

end

variable {P : Params} {cfg : PartCfg}

theorem rotate_lt (P : Params) : P.cacheBankBits + P.tileBits < 2 ^ P.rotWidth := by
  have hle := le_two_pow_clog2 (P.cacheBankBits + P.tileBits + 1)
  have hpos := Nat.two_pow_pos (clog2 (P.cacheBankBits + P.tileBits + 1))
  rw [Params.rotWidth, Nat.pow_succ]
  omega

/-- The cast to `RotWidth` bits keeps either number of routing bits. -/
theorem bitsToRotate_cases (P : Params) (cfg : PartCfg) (cb : Nat) :
    bitsToRotate P cfg cb = P.cacheBankBits ∨ bitsToRotate P cfg cb = P.cacheBankBits + P.tileBits := by
  have hlt := rotate_lt P
  have hbank : P.cacheBankBits % 2 ^ P.rotWidth = P.cacheBankBits := Nat.mod_eq_of_lt (by omega)
  have hboth := Nat.mod_eq_of_lt hlt
  unfold bitsToRotate
  rw [hbank, hboth]
  split
  · exact Or.inr rfl
  · split
    · exact Or.inl rfl
    · split
      · exact Or.inl rfl
      · exact Or.inr rfl

theorem bitsToRotate_lt (P : Params) (cfg : PartCfg) (cb : Nat) : bitsToRotate P cfg cb < 2 ^ P.rotWidth := by
  have hlt := rotate_lt P
  rcases bitsToRotate_cases P cfg cb with h | h <;> omega

/-- **The sum is exact exactly where it fits**, for a routing field inside the address. -/
theorem shiftSum_eq_iff {n : Nat} (hin : cfg.dynamicOffset.toNat + n ≤ 32) :
    shiftSum P cfg n = cfg.dynamicOffset.toNat + n ↔ SumFits P cfg n := by
  constructor
  · intro heq
    by_contra hn
    obtain ⟨htop, hnarrow⟩ := not_or.mp hn
    have hwrap : cfg.dynamicOffset.toNat + n = 32 := by omega
    rw [shiftSum, hwrap, max_eq_left (by omega)] at heq
    omega
  · rintro (hlt | hwide)
    · exact shiftSum_eq hlt
    · have hpow : 2 ^ 6 ≤ 2 ^ max 5 P.rotWidth := Nat.pow_le_pow_right (by omega) (by omega)
      exact Nat.mod_eq_of_lt (by omega)

theorem amountsExact_iff {cb : Nat} (hin : cfg.dynamicOffset.toNat + bitsToRotate P cfg cb ≤ 32)
    (hrefill : cfg.dynamicOffset.toNat + refillBitsToRotate P cfg cb ≤ 32) :
    AmountsExact P cfg cb ↔
      SumFits P cfg (bitsToRotate P cfg cb) ∧ SumFits P cfg (refillBitsToRotate P cfg cb) := by
  constructor
  · intro h
    exact ⟨(shiftSum_eq_iff hin).mp h.hole, (shiftSum_eq_iff hrefill).mp h.refill_hole⟩
  · rintro ⟨hfits, hfits'⟩
    have hlt := rotate_lt P
    have hbits := bitsToRotate_cases P cfg cb
    have hoffset : subU32 32 cfg.dynamicOffset.toNat = 32 - cfg.dynamicOffset.toNat :=
      subU32_eq (by omega) (by omega)
    refine ⟨Nat.mod_eq_of_lt (by omega), Nat.mod_eq_of_lt hlt, Nat.mod_eq_of_lt (by omega),
      (shiftSum_eq_iff hin).mpr hfits, ?_, ?_, ?_, (shiftSum_eq_iff hrefill).mpr hfits'⟩
    · rw [subU32_eq (by omega) (by omega)]
      omega
    · rw [subU32_eq (by omega) (by omega)]
      omega
    · rw [hoffset, subU32_eq (by omega) (by omega)]
      omega

/-- Where the sum wraps to 0, the low bits of an address are mixed into its routing field. -/
theorem not_rotatesBanks {cb : Nat} (hin : cfg.dynamicOffset.toNat + bitsToRotate P cfg cb = 32)
    (hnarrow : P.rotWidth < 6) : ¬ RotatesBanks P cfg cb := by
  intro h
  have hsmall : bitsToRotate P cfg cb < 32 := by
    have hlt := bitsToRotate_lt P cfg cb
    have hpow : 2 ^ P.rotWidth ≤ 2 ^ 5 := Nat.pow_le_pow_right (by omega) (by omega)
    omega
  have hsum : shiftSum P cfg (bitsToRotate P cfg cb) = 0 := by
    rw [shiftSum, hin, max_eq_left (by omega)]
    decide
  -- address 1 has an empty routing field
  have hfield : BitField.fieldAt cfg.dynamicOffset.toNat (bitsToRotate P cfg cb) 1#32 = 0#32 := by
    have hzero : 1#32 >>> cfg.dynamicOffset.toNat = 0#32 := by
      apply BitVec.eq_of_getLsbD_eq
      intro i hi
      simp
      omega
    rw [BitField.fieldAt, hzero, BitVec.zero_and]
  have htop : BitField.topField (bitsToRotate P cfg cb) (genScramble P cfg cb 1#32) = 0#32 :=
    (h 0#32).mapsTo hfield
  have hbit : (BitField.topField (bitsToRotate P cfg cb) (genScramble P cfg cb 1#32)).getLsbD 0 = true := by
    have ho : 32 - bitsToRotate P cfg cb = cfg.dynamicOffset.toNat := by omega
    simp only [BitField.topField, BitVec.getLsbD_ushiftRight, ho, genScramble, addrRot, hsum]
    simp
    omega
  rw [htop] at hbit
  simp at hbit

theorem rotatesBanks_iff {cb : Nat} (hin : cfg.dynamicOffset.toNat + bitsToRotate P cfg cb ≤ 32) :
    RotatesBanks P cfg cb ↔ SumFits P cfg (bitsToRotate P cfg cb) := by
  constructor
  · intro h
    by_contra hn
    obtain ⟨htop, hnarrow⟩ := not_or.mp hn
    exact not_rotatesBanks (by omega) (by omega) h
  · intro hfits r
    rw [show genScramble P cfg cb = BitField.park cfg.dynamicOffset.toNat (bitsToRotate P cfg cb) from
      addrRot_eq_park_of_shiftSum ((shiftSum_eq_iff hin).mpr hfits) (by omega)]
    exact BitField.bijOn_park hin r

/-- **Width of the shift sums.**  For every topology, every partition and every offset the runtime can set
with the routing field inside the address: the amounts of a bank's two paths are exact, and its rotation is a
bijection, if and only if the sum of offset and routing bits fits the width it is formed in. -/
theorem rotation_exact_iff (P : Params) (offset : BitVec 32) (l1dPrivate : BitVec 4)
    (privateStartAddr : BitVec 32) (cb : Nat)
    (hin : (xbarOffset (l1dXbarConfig offset)).toNat +
      bitsToRotate P ⟨xbarOffset (l1dXbarConfig offset), l1dPrivate, privateStartAddr⟩ cb ≤ 32)
    (hrefill : (xbarOffset (l1dXbarConfig offset)).toNat +
      refillBitsToRotate P ⟨xbarOffset (l1dXbarConfig offset), l1dPrivate, privateStartAddr⟩ cb ≤ 32) :
    let cfg : PartCfg := ⟨xbarOffset (l1dXbarConfig offset), l1dPrivate, privateStartAddr⟩
    (AmountsExact P cfg cb ↔
      SumFits P cfg (bitsToRotate P cfg cb) ∧ SumFits P cfg (refillBitsToRotate P cfg cb)) ∧
    (RotatesBanks P cfg cb ↔ SumFits P cfg (bitsToRotate P cfg cb)) :=
  ⟨amountsExact_iff hin hrefill, rotatesBanks_iff hin⟩

/-- Four tiles of four banks, all shared, the offset of reset. -/
theorem rotation_exact_reset :
    let P : Params := ⟨4, 4, 4, 2⟩
    let cfg : PartCfg := ⟨xbarOffset (l1dXbarConfig 14#32), 0#4, 0xA0000000#32⟩
    SumFits P cfg (bitsToRotate P cfg 0) ∧
    (AmountsExact P cfg 0 ↔
      SumFits P cfg (bitsToRotate P cfg 0) ∧ SumFits P cfg (refillBitsToRotate P cfg 0)) ∧
    (RotatesBanks P cfg 0 ↔ SumFits P cfg (bitsToRotate P cfg 0)) :=
  ⟨by decide, rotation_exact_iff ⟨4, 4, 4, 2⟩ 14#32 0#4 0xA0000000#32 0 (by decide) (by decide)⟩

/-- The same topology with the routing field in the top four bits: the sum is 32 in five bits, address 1 is
rotated to another tile's address and its refill asks for that one. -/
theorem rotation_wraps_at_top :
    let P : Params := ⟨4, 4, 4, 2⟩
    let cfg : PartCfg := ⟨xbarOffset (l1dXbarConfig 28#32), 0#4, 0xA0000000#32⟩
    cfg.dynamicOffset.toNat + bitsToRotate P cfg 0 = 32 ∧
    shiftSum P cfg (bitsToRotate P cfg 0) = 0 ∧
    bankAddrScramble P cfg 0 (genScramble P cfg 0 1#32) = 0x10000001#32 ∧
    ¬ AmountsExact P cfg 0 ∧ ¬ RotatesBanks P cfg 0 := by
  refine ⟨by decide, by decide, by decide, fun h => ?_, not_rotatesBanks (by decide) (by decide)⟩
  have hhole := h.hole
  revert hhole
  decide

end Rotation

end CachePool
