import CachePool.Interco

/-!
# The refill path of a tile (`cachepool_tile`: `refill_rot_sel`, `bank_addr_scramble`)

A cache bank stores rotated addresses; the tile un-rotates the address of every refill and
write-back.  The two sides choose the number of rotated bits in separate case trees.

* `refillBitsToRotate_eq` — for power-of-two topologies the tile's choice is the interconnect's.
* `refill_inverts_scramble` — un-rotating with the tile's amount undoes the interconnect's rotation.
-/

set_option autoImplicit false

namespace CachePool

namespace Refill

variable (P : Params) (cfg : PartCfg)

/-- `refill_rot_sel` of bank `cb`; `RefillRotWidth` is the interconnect's `RotWidth`. -/
def refillBitsToRotate (cb : Nat) : Nat :=
  if cfg.numPrivateCache = 0 then
    (P.cacheBankBits + P.tileBits) % 2 ^ P.rotWidth
  else if cfg.numPrivateCache = P.numCache % 2 ^ 3 then
    P.cacheBankBits % 2 ^ P.rotWidth
  else if cb < cfg.numPrivateCache then
    P.cacheBankBits % 2 ^ P.rotWidth
  else
    (P.cacheBankBits + P.tileBits) % 2 ^ P.rotWidth

/-- The inverse rotation by `n` bits. -/
def addrUnrot (n : Nat) (addrRot : BitVec 32) : BitVec 32 :=
  let o := cfg.dynamicOffset.toNat
  let bitmaskLo := (1#32 <<< o) - 1#32
  let lower := addrRot &&& bitmaskLo
  let rotField := addrRot >>> Interco.subU32 32 n
  let upper := (addrRot >>> o) &&&
    ((1#32 <<< Interco.subU32 (Interco.subU32 32 o) n) - 1#32)
  lower ||| (rotField <<< o) ||| (upper <<< Interco.shiftSum P cfg n)

/-- `bank_addr_scramble`: the address bank `cb` sends to the refill network. -/
def bankAddrScramble (cb : Nat) (addrRot : BitVec 32) : BitVec 32 :=
  addrUnrot P cfg (refillBitsToRotate P cfg cb) addrRot

variable {P cfg}

theorem addrUnrot_eq_unpark {n : Nat} (h : cfg.dynamicOffset.toNat + n < 32) :
    addrUnrot P cfg n = BitField.unpark cfg.dynamicOffset.toNat n := by
  have h1 : Interco.subU32 32 n = 32 - n := Interco.subU32_eq (by omega) (by omega)
  have h2 : Interco.subU32 32 cfg.dynamicOffset.toNat = 32 - cfg.dynamicOffset.toNat :=
    Interco.subU32_eq (by omega) (by omega)
  have h3 : Interco.subU32 (32 - cfg.dynamicOffset.toNat) n = 32 - cfg.dynamicOffset.toNat - n :=
    Interco.subU32_eq (by omega) (by omega)
  funext addr
  simp only [addrUnrot, h1, h2, h3, Interco.shiftSum_eq h, BitField.unpark, BitField.lowMask]

/-- The tile compares its three partition bits with `3'(NumL1CtrlTile)`, the interconnect its
`$clog2(NumCache)+1` bits with `NumCache`.  The two comparisons agree on powers of two: from eight
banks on the tile's constant is zero, which the case before has taken. -/
theorem all_private_iff {k : Nat} (hk : P.numCache = 2 ^ k) (h0 : cfg.numPrivateCache ≠ 0) :
    cfg.numPrivateCache = P.numCache % 2 ^ 3 ↔ cfg.numPrivateCache = P.numCache := by
  have hlt : cfg.numPrivateCache < 2 ^ 3 := Nat.mod_lt _ (by omega)
  rw [hk]
  by_cases h3 : k < 3
  · rw [Nat.mod_eq_of_lt (Nat.pow_lt_pow_right (by omega) h3)]
  · have hz : 2 ^ k % 2 ^ 3 = 0 :=
      Nat.mod_eq_zero_of_dvd (Nat.pow_dvd_pow 2 (by omega))
    have : 2 ^ 3 ≤ 2 ^ k := Nat.pow_le_pow_right (by omega) (by omega)
    constructor <;> intro h <;> omega

/-- **Both modules rotate every bank by the same number of bits.** -/
theorem refillBitsToRotate_eq (hC : ∃ k, P.numCache = 2 ^ k)
    (h : cfg.numPrivateCache ≤ P.numCache) (cb : Nat) :
    refillBitsToRotate P cfg cb = Interco.bitsToRotate P cfg cb := by
  obtain ⟨k, hk⟩ := hC
  unfold refillBitsToRotate Interco.bitsToRotate
  rw [Interco.numPrivateCacheQ_eq h, Interco.numCacheW_eq]
  split
  · rfl
  · rename_i h0
    simp only [all_private_iff hk h0]

theorem bankAddrScramble_genScramble (hC : ∃ k, P.numCache = 2 ^ k)
    (h : cfg.numPrivateCache ≤ P.numCache) {cb : Nat}
    (ho : cfg.dynamicOffset.toNat + Interco.bitsToRotate P cfg cb < 32) (addr : BitVec 32) :
    bankAddrScramble P cfg cb (Interco.genScramble P cfg cb addr) = addr := by
  rw [bankAddrScramble, refillBitsToRotate_eq hC h cb, addrUnrot_eq_unpark ho,
    Interco.genScramble, Interco.addrRot_eq_park ho]
  exact BitField.unpark_park (by omega) addr

theorem genScramble_bankAddrScramble (hC : ∃ k, P.numCache = 2 ^ k)
    (h : cfg.numPrivateCache ≤ P.numCache) {cb : Nat}
    (ho : cfg.dynamicOffset.toNat + Interco.bitsToRotate P cfg cb < 32) (addr : BitVec 32) :
    Interco.genScramble P cfg cb (bankAddrScramble P cfg cb addr) = addr := by
  rw [bankAddrScramble, refillBitsToRotate_eq hC h cb, addrUnrot_eq_unpark ho,
    Interco.genScramble, Interco.addrRot_eq_park ho]
  exact BitField.park_unpark (by omega) addr

/-- **The two rotations are mutually inverse**, for every partition, bank, address and offset that
leaves the routing field inside the address (whatever the number of tiles); hence a bank never sees
one rotated address for two addresses. -/
theorem refill_inverts_scramble (hC : ∃ k, P.numCache = 2 ^ k)
    (h : cfg.l1dPrivate.toNat ≤ P.numCache) {cb : Nat}
    (ho : cfg.dynamicOffset.toNat + Interco.bitsToRotate P cfg cb < 32) :
    refillBitsToRotate P cfg cb = Interco.bitsToRotate P cfg cb ∧
    (∀ addr, bankAddrScramble P cfg cb (Interco.genScramble P cfg cb addr) = addr) ∧
    (∀ addr, Interco.genScramble P cfg cb (bankAddrScramble P cfg cb addr) = addr) ∧
    Function.Injective (Interco.genScramble P cfg cb) := by
  have hle := cfg.numPrivateCache_le.trans h
  have hinv := bankAddrScramble_genScramble hC hle ho
  exact ⟨refillBitsToRotate_eq hC hle cb, hinv, genScramble_bankAddrScramble hC hle ho,
    Function.LeftInverse.injective hinv⟩

/-- Four tiles of four banks, one of them private: bank 2 is shared and rotates four bits. -/
theorem refill_inverts_scramble_one_private :
    let P : Params := ⟨4, 4, 4, 2⟩
    let cfg : PartCfg := ⟨14#5, 1#4, 0xA0000000#32⟩
    14 + Interco.bitsToRotate P cfg 2 = 18 ∧
    refillBitsToRotate P cfg 2 = Interco.bitsToRotate P cfg 2 ∧
    (∀ addr, bankAddrScramble P cfg 2 (Interco.genScramble P cfg 2 addr) = addr) ∧
    (∀ addr, Interco.genScramble P cfg 2 (bankAddrScramble P cfg 2 addr) = addr) ∧
    Function.Injective (Interco.genScramble P cfg 2) :=
  ⟨by decide, refill_inverts_scramble ⟨2, by decide⟩ (by decide) (by decide)⟩

end Refill

end CachePool
