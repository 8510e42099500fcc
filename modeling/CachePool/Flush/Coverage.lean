import CachePool.Flush.Tile
import CachePool.Remote

/-!
# Flushed banks and routed banks

The interconnect decides by address arithmetic which bank a line lives in; the tile decides by a case
tree which controllers a private or a shared flush starts.

* `routesTo_iff`, `insnSelects_flushInsn` — the two sides in one form.
* `coversClasses_iff` — the flush of a class starts every bank holding lines of it exactly when
  `FlushCovers` holds of the configuration: the tile must see the partition (its port has three bits),
  and a single tile, which routes by the whole bank field, must be unpartitioned in effect.
* `flush_coverage_iff` — the same with the banks of the other class left alone.
-/

set_option autoImplicit false

namespace CachePool

namespace Flush

open Interco

/-- The instruction that flushes the lines of a class. -/
def flushInsn (isPrivate : Bool) : BitVec 2 := if isPrivate then 0 else 1

variable (P : Params) (cfg : PartCfg)

/-- The class the configuration gives an address. -/
def classOf (addr : BitVec 32) : Bool :=
  effPrivate cfg.l1dPrivate.toNat P.numCache cfg.privateStartAddr addr

/-- The interconnect of some tile places a line of address `addr` in its bank `b`. -/
def RoutesTo (addr : BitVec 32) (b : Nat) : Prop :=
  b < P.numCache ∧ ∃ t, t < P.numTiles ∧ genReqSel P cfg t addr = ⟨true, b⟩

/-- The flush of a class starts every bank in which a line of the class can be placed. -/
def CoversClasses : Prop :=
  ∀ addr b, RoutesTo P cfg addr b →
    insnSelects (flushInsn (classOf P cfg addr)) cfg.numPrivateCache b = true

/-- In mixed mode, a bank that can hold lines of one class only is not started by the flush of the
other. -/
def SparesOthers : Prop :=
  0 < cfg.l1dPrivate.toNat → cfg.l1dPrivate.toNat < P.numCache → ∀ b c,
    (∃ addr, RoutesTo P cfg addr b) → (∀ addr, RoutesTo P cfg addr b → classOf P cfg addr = c) →
      insnSelects (flushInsn (!c)) cfg.numPrivateCache b = false

/-- The configurations in which flushes and routing agree. -/
def FlushCovers : Prop :=
  if cfg.l1dPrivate.toNat = 0 then True
  else if cfg.numPrivateCache = 0 then
    -- the tile's three bits of the partition are zero: no private address may reach a bank
    ∀ addr, addrBank P cfg addr < P.numCache →
      (P.numTiles = 1 ∨ addrTile P cfg addr < P.numTiles) → classOf P cfg addr = false
  else if P.numTiles = 1 then
    (cfg.l1dPrivate.toNat = P.numCache ∧ cfg.l1dPrivate.toNat < 8) ∨
    (2 ^ min P.cacheBankBits (32 - cfg.dynamicOffset.toNat) ≤ cfg.numPrivateCache ∧
      (cfg.l1dPrivate.toNat = P.numCache ∨ cfg.privateStartAddr = 0))
  else
    cfg.l1dPrivate.toNat < P.numCache ∨ cfg.l1dPrivate.toNat < 8 ∨ cfg.privateStartAddr = 0

variable {P cfg}

/-! ## Both sides in one form -/

theorem insnSelects_flushInsn (c : Bool) (np b : Nat) :
    insnSelects (flushInsn c) np b = (c == decide (b < np)) := by
  unfold insnSelects flushInsn
  cases c
  · by_cases h : b < np
    · simp [h, Nat.not_le.mpr h]
    · simp [h, Nat.not_lt.mp h]
  · simp

theorem routesTo_iff (hT : 1 ≤ P.numTiles) (h : cfg.numPrivateCache ≤ P.numCache)
    (addr : BitVec 32) (b : Nat) :
    RoutesTo P cfg addr b ↔ b < P.numCache ∧ bankSel P cfg addr = b ∧
      (staysLocal P cfg addr = true ∨ addrTile P cfg addr < P.numTiles) := by
  unfold RoutesTo
  refine and_congr_right fun _ => ?_
  constructor
  · rintro ⟨t, ht, hsel⟩
    rw [genReqSel_eq h] at hsel
    split at hsel
    · rename_i hl
      cases hsel
      refine ⟨rfl, hl.imp_right fun heq => ?_⟩
      rw [heq]
      exact ht
    · cases hsel
  · rintro ⟨rfl, hl | hl⟩
    · exact ⟨0, hT, by rw [genReqSel_eq h, if_pos (Or.inl hl)]⟩
    · exact ⟨_, hl, by rw [genReqSel_eq h, if_pos (Or.inr rfl)]⟩

/-- Coverage says that the class of an address is read off its bank. -/
theorem coversClasses_iff_class :
    CoversClasses P cfg ↔ ∀ addr b, RoutesTo P cfg addr b →
      classOf P cfg addr = decide (b < cfg.numPrivateCache) := by
  unfold CoversClasses
  simp only [insnSelects_flushInsn, beq_iff_eq]

/-- A flush that covers its class leaves the banks of the other class alone. -/
theorem CoversClasses.sparesOthers (h : CoversClasses P cfg) : SparesOthers P cfg := by
  rintro - - b c ⟨addr, ha⟩ hc
  have hb := coversClasses_iff_class.mp h addr b ha
  rw [hc addr ha] at hb
  rw [insnSelects_flushInsn, ← hb]
  cases c <;> rfl

/-! ## Coverage, by topology and partition -/

theorem classOf_of_mixed (h0 : cfg.l1dPrivate.toNat ≠ 0) (hN : cfg.l1dPrivate.toNat ≠ P.numCache)
    (addr : BitVec 32) : classOf P cfg addr = isPrivate cfg addr := effPrivate_of_mixed h0 hN _ addr

theorem classOf_of_all (h0 : cfg.l1dPrivate.toNat ≠ 0) (hN : cfg.l1dPrivate.toNat = P.numCache)
    (addr : BitVec 32) : classOf P cfg addr = true := effPrivate_of_all h0 hN _ addr

theorem classOf_of_start_zero (h0 : cfg.l1dPrivate.toNat ≠ 0) (hs : cfg.privateStartAddr = 0)
    (addr : BitVec 32) : classOf P cfg addr = true := by
  apply effPrivate_of_start_le h0
  rw [hs]
  exact Nat.zero_le addr.toNat

/-- Address zero is private only if every address is. -/
theorem all_or_start_zero (h0 : cfg.l1dPrivate.toNat ≠ 0) (hc : classOf P cfg 0#32 = true) :
    cfg.l1dPrivate.toNat = P.numCache ∨ cfg.privateStartAddr = 0 := by
  by_cases hN : cfg.l1dPrivate.toNat = P.numCache
  · exact Or.inl hN
  · rw [classOf_of_mixed h0 hN, isPrivate, decide_eq_true_eq] at hc
    exact Or.inr (BitVec.le_zero_iff.mp hc)

theorem coversClasses_of_zero (h0 : cfg.l1dPrivate.toNat = 0) : CoversClasses P cfg := by
  have hnp : cfg.numPrivateCache = 0 := by rw [PartCfg.numPrivateCache, h0, Nat.zero_mod]
  rw [coversClasses_iff_class]
  intro addr b _
  simp [classOf, effPrivate, h0, hnp]

/-- The tile sees no private bank although there are some. -/
theorem coversClasses_iff_of_hidden (hT : 1 ≤ P.numTiles) (h0 : cfg.l1dPrivate.toNat ≠ 0)
    (hp : cfg.l1dPrivate.toNat ≤ P.numCache) (hnp : cfg.numPrivateCache = 0) :
    CoversClasses P cfg ↔ ∀ addr, addrBank P cfg addr < P.numCache →
      (P.numTiles = 1 ∨ addrTile P cfg addr < P.numTiles) → classOf P cfg addr = false := by
  have hN : ¬ (0 = P.numCache) := by omega
  have hbank : ∀ addr, bankSel P cfg addr = addrBank P cfg addr := by
    intro addr
    simp [bankSel, hnp]
  have hlocal : ∀ addr, staysLocal P cfg addr = decide (P.numTiles = 1) := by
    intro addr
    simp [staysLocal, hnp, hN]
  rw [coversClasses_iff_class]
  simp only [routesTo_iff hT (hnp ▸ Nat.zero_le _), hbank, hlocal, hnp, Nat.not_lt_zero,
    decide_false, decide_eq_true_eq]
  constructor
  · intro h addr hb ht
    exact h addr _ ⟨hb, rfl, ht⟩
  · rintro h addr b ⟨hb, rfl, ht⟩
    exact h addr hb ht

/-- A single tile routes by the whole bank field. -/
theorem coversClasses_iff_of_single (hT : P.numTiles = 1) (h0 : cfg.l1dPrivate.toNat ≠ 0)
    (hp : cfg.l1dPrivate.toNat ≤ P.numCache) (hnp : cfg.numPrivateCache ≠ 0) :
    CoversClasses P cfg ↔
      (cfg.l1dPrivate.toNat = P.numCache ∧ cfg.l1dPrivate.toNat < 8) ∨
      (2 ^ min P.cacheBankBits (32 - cfg.dynamicOffset.toNat) ≤ cfg.numPrivateCache ∧
        (cfg.l1dPrivate.toNat = P.numCache ∨ cfg.privateStartAddr = 0)) := by
  have hle := cfg.numPrivateCache_le
  have hroute : ∀ addr b, RoutesTo P cfg addr b ↔ b < P.numCache ∧ addrBank P cfg addr = b := by
    intro addr b
    rw [routesTo_iff hT.ge (hle.trans hp)]
    simp [bankSel, staysLocal, hT]
  rw [coversClasses_iff_class]
  constructor
  · intro h
    have hzero : classOf P cfg 0#32 = true := by
      rw [h 0#32 0 ((hroute 0#32 0).mpr ⟨by omega, addrBank_zero⟩), decide_eq_true_eq]
      omega
    have hall := all_or_start_zero h0 hzero
    by_cases hdone : cfg.l1dPrivate.toNat = P.numCache ∧ cfg.l1dPrivate.toNat < 8
    · exact Or.inl hdone
    refine Or.inr ⟨Nat.not_lt.mp fun hlt => ?_, hall⟩
    -- an address whose bank field is the first bank beyond the private ones
    obtain ⟨addr, ha⟩ := exists_addrBank hlt
    have hmod : cfg.numPrivateCache < 8 := Nat.mod_lt _ (by omega)
    have hclass : classOf P cfg addr = true := by
      rcases hall with hN | hs
      · exact classOf_of_all h0 hN addr
      · exact classOf_of_start_zero h0 hs addr
    have hbank := h addr _ ((hroute addr _).mpr ⟨by omega, ha⟩)
    rw [hclass, Nat.lt_irrefl _ |> decide_eq_false] at hbank
    cases hbank
  · rintro (⟨hN, h8⟩ | ⟨hfield, hall⟩) addr b hr
    · obtain ⟨hb, -⟩ := (hroute addr b).mp hr
      have : cfg.numPrivateCache = cfg.l1dPrivate.toNat := Nat.mod_eq_of_lt h8
      rw [classOf_of_all h0 hN, eq_comm, decide_eq_true_eq]
      omega
    · obtain ⟨-, rfl⟩ := (hroute addr b).mp hr
      have hclass : classOf P cfg addr = true := by
        rcases hall with hN | hs
        · exact classOf_of_all h0 hN addr
        · exact classOf_of_start_zero h0 hs addr
      rw [hclass, eq_comm, decide_eq_true_eq]
      exact Nat.lt_of_lt_of_le (addrBank_lt_field addr) hfield

/-- Several tiles fold the bank field into the partition of the class. -/
theorem coversClasses_iff_of_several (hT : 1 ≤ P.numTiles) (hT1 : P.numTiles ≠ 1)
    (h0 : cfg.l1dPrivate.toNat ≠ 0) (hp : cfg.l1dPrivate.toNat ≤ P.numCache)
    (hnp : cfg.numPrivateCache ≠ 0) :
    CoversClasses P cfg ↔
      cfg.l1dPrivate.toNat < P.numCache ∨ cfg.l1dPrivate.toNat < 8 ∨ cfg.privateStartAddr = 0 := by
  have hle := cfg.numPrivateCache_le
  have hroute : ∀ addr b, RoutesTo P cfg addr b ↔ b < P.numCache ∧ bankSel P cfg addr = b ∧
      (staysLocal P cfg addr = true ∨ addrTile P cfg addr < P.numTiles) :=
    routesTo_iff hT (hle.trans hp)
  rw [coversClasses_iff_class]
  constructor
  · intro h
    by_contra hc
    simp only [not_or] at hc
    obtain ⟨hN, h8, hs⟩ := hc
    have hmod : cfg.numPrivateCache < 8 := Nat.mod_lt _ (by omega)
    have hpriv : isPrivate cfg 0#32 = false := by
      rw [isPrivate, decide_eq_false_iff_not]
      intro hz
      exact hs (BitVec.le_zero_iff.mp hz)
    have hbank : bankSel P cfg 0#32 = cfg.numPrivateCache := by
      have : cfg.numPrivateCache ≠ P.numCache := by omega
      simp [bankSel, addrBank_zero, hpriv, hnp, hT1, this]
    have hclass := h 0#32 cfg.numPrivateCache ((hroute 0#32 _).mpr
      ⟨by omega, hbank, Or.inr (by rw [addrTile_zero]; omega)⟩)
    rw [classOf_of_all h0 (by omega), Nat.lt_irrefl _ |> decide_eq_false] at hclass
    cases hclass
  · intro hcond addr b hr
    obtain ⟨hb, rfl, -⟩ := (hroute addr b).mp hr
    by_cases hnN : cfg.numPrivateCache = P.numCache
    · rw [classOf_of_all h0 (by omega), eq_comm, decide_eq_true_eq]
      omega
    · have hsel : bankSel P cfg addr =
          if isPrivate cfg addr then addrBank P cfg addr % cfg.numPrivateCache
          else cfg.numPrivateCache + addrBank P cfg addr % (P.numCache - cfg.numPrivateCache) := by
        simp [bankSel, hnN, hT1, hnp]
      by_cases hN : cfg.l1dPrivate.toNat = P.numCache
      · -- all banks are private, but the tile sees fewer: then every address must be private
        have hs : cfg.privateStartAddr = 0 := by
          rcases hcond with h | h | h
          · omega
          · have hsame : cfg.numPrivateCache = cfg.l1dPrivate.toNat := Nat.mod_eq_of_lt h
            exact absurd (hsame.trans hN) hnN
          · exact h
        have hpriv : isPrivate cfg addr = true := by
          rw [isPrivate, hs]
          exact decide_eq_true (Nat.zero_le addr.toNat)
        rw [classOf_of_all h0 hN, hsel, if_pos hpriv, eq_comm, decide_eq_true_eq]
        exact Nat.mod_lt _ (by omega)
      · rw [classOf_of_mixed h0 hN, hsel]
        cases isPrivate cfg addr
        · simp
        · simp [Nat.mod_lt _ (Nat.pos_of_ne_zero hnp)]

theorem coversClasses_iff (hT : 1 ≤ P.numTiles) (hp : cfg.l1dPrivate.toNat ≤ P.numCache) :
    CoversClasses P cfg ↔ FlushCovers P cfg := by
  unfold FlushCovers
  split
  · rename_i h0
    exact iff_of_true (coversClasses_of_zero h0) trivial
  · rename_i h0
    split
    · rename_i hnp
      exact coversClasses_iff_of_hidden hT h0 hp hnp
    · rename_i hnp
      split
      · rename_i hT1
        exact coversClasses_iff_of_single hT1 h0 hp hnp
      · rename_i hT1
        exact coversClasses_iff_of_several hT hT1 h0 hp hnp

/-- **When flushes agree with routing.**  For every topology and configuration with a partition
boundary inside the tile, the private and the shared flush start every bank that can hold a line of
their class, and in mixed mode no bank that holds only lines of the other, exactly when
`FlushCovers` holds. -/
theorem flush_coverage_iff (P : Params) (cfg : PartCfg) (hT : 1 ≤ P.numTiles)
    (hp : cfg.l1dPrivate.toNat ≤ P.numCache) :
    CoversClasses P cfg ∧ SparesOthers P cfg ↔ FlushCovers P cfg := by
  rw [← coversClasses_iff hT hp]
  exact ⟨fun h => h.1, fun h => ⟨h, h.sparesOthers⟩⟩

/-- One tile of four banks, half of them private: a private line with bank field 3 is placed in
bank 3, which the private flush does not start. -/
theorem flush_misses_private_line :
    let P : Params := ⟨1, 4, 4, 1⟩
    let cfg : PartCfg := ⟨14, 2, 0xA0000000⟩
    classOf P cfg 0xA000C000 = true ∧ RoutesTo P cfg 0xA000C000 3 ∧
      insnSelects (flushInsn true) cfg.numPrivateCache 3 = false ∧ ¬ CoversClasses P cfg := by
  intro P cfg
  have hr : RoutesTo P cfg 0xA000C000 3 := ⟨by decide, 0, by decide, by decide⟩
  refine ⟨by decide, hr, by decide, fun h => ?_⟩
  have hsel := h 0xA000C000 3 hr
  revert hsel
  decide

/-- Four tiles of four banks, one of them private. -/
theorem flush_coverage_four_tiles :
    CoversClasses ⟨4, 4, 4, 2⟩ ⟨14, 1, 0xA0000000⟩ ∧ SparesOthers ⟨4, 4, 4, 2⟩ ⟨14, 1, 0xA0000000⟩ :=
  (flush_coverage_iff ⟨4, 4, 4, 2⟩ ⟨14, 1, 0xA0000000⟩ (by decide) (by decide)).mpr
    (Or.inl (by decide))

end Flush

end CachePool
