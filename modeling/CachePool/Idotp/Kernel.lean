import CachePool.Idotp.VectorUnit
import CachePool.Lib.Loop
import Mathlib.Tactic.Ring

/-!
# The integer dot products (`kernel/idotp.c`)

The first strip is multiplied outside the loop, and the loop is one that tests after its body: with a single
round, its counter passes below zero.  The sum is taken onto element 0 of `v0`, whatever that holds, and the
variant for single registers multiplies its first strip in floating point.

* `idotp` — what the four kernels have in common; `idotpV32bLmul8`, …, `idotpV32bLmul1`.
* `After`, `after_pass` — the state after `k` passes, and one pass.
* `idotp_ends` — the kernels end, with the sum of as many rounds as the loop has passes, and one.
* `idotp_exact_iff` — they are exact for two rounds and more if `v0` and the first strip add nothing, and for
  one round only where the loop cannot be told.
* `idotp_kernels_exact_iff` — the four of them.
-/

set_option autoImplicit false

namespace CachePool

namespace Idotp

open Finset Loop

variable (U : VectorUnit) (s : State)

/-- Up to the loop.  `first` multiplies the elements of the first strip. -/
def prologue (lmul : Nat) (first : BitVec 32 → BitVec 32 → BitVec 32) (a b avl rounds : BitVec 32) : State :=
  let s := { s with a := a, b := b, iter := rounds, loads := [] }
  let s := vsetvli U s lmul avl.toNat
  let s := vle32 U s 8 s.a
  let s := { s with iter := s.iter - 1 }
  let s := vle32 U s 16 s.b
  vbinary U s first 24 8 16

/-- The body of the loop. -/
def pass (offset : BitVec 32) : State :=
  let s := { s with a := s.a + 4 * offset }
  let s := vle32 U s 8 s.a
  let s := { s with b := s.b + 4 * offset }
  let s := vle32 U s 16 s.b
  let s := { s with iter := s.iter - 1 }
  vmacc U s 24 8 16

/-- Behind the loop. -/
def epilogue : State := vmvXS U (vredsum U s 0 24 0) 0

def idotp (lmul : Nat) (first : BitVec 32 → BitVec 32 → BitVec 32) (a b offset avl rounds : BitVec 32) :
    Prog State :=
  seq (act fun s => prologue U s lmul first a b avl rounds)
    (seq (doWhile (fun s => decide (s.iter > 0)) (pass U · offset)) (act (epilogue U)))

/-- `idotp_v32b_lmul8`. -/
def idotpV32bLmul8 : BitVec 32 → BitVec 32 → BitVec 32 → BitVec 32 → BitVec 32 → Prog State :=
  idotp U 8 (· * ·)

/-- `idotp_v32b_lmul4`. -/
def idotpV32bLmul4 : BitVec 32 → BitVec 32 → BitVec 32 → BitVec 32 → BitVec 32 → Prog State :=
  idotp U 4 (· * ·)

/-- `idotp_v32b_lmul2`. -/
def idotpV32bLmul2 : BitVec 32 → BitVec 32 → BitVec 32 → BitVec 32 → BitVec 32 → Prog State :=
  idotp U 2 (· * ·)

/-- `idotp_v32b_lmul1`, with `vfmul.vv` for the first strip. -/
def idotpV32bLmul1 : BitVec 32 → BitVec 32 → BitVec 32 → BitVec 32 → BitVec 32 → Prog State :=
  idotp U 1 U.fmul

/-! ## What they are to compute -/

/-- `&p[r * offset + i]`. -/
def elemAddr (p offset : BitVec 32) (r i : Nat) : BitVec 32 := p + 4 * (offset * r + i)

/-- `p[r * offset + i]`. -/
def strip (mem : BitVec 32 → BitVec 8) (p offset : BitVec 32) (r i : Nat) : BitVec 32 :=
  word mem (elemAddr p offset r i)

/-- The dot product modulo the word. -/
def dot (mem : BitVec 32 → BitVec 8) (a b offset : BitVec 32) (avl rounds : Nat) : BitVec 32 :=
  ∑ r ∈ range rounds, ∑ i ∈ range avl, strip mem a offset r i * strip mem b offset r i

/-- The elements of the first `rounds` rounds, each for the group that it belongs in. -/
def Touches (a b offset : BitVec 32) (avl rounds : Nat) (e : Nat × BitVec 32) : Prop :=
  ∃ r < rounds, ∃ i < avl, e = (8, elemAddr a offset r i) ∨ e = (16, elemAddr b offset r i)

/-- The kernel `p` ends from `s`, returns the dot product, and loads nothing but its elements. -/
def Exact (s : State) (a b offset avl rounds : BitVec 32) (p : Prog State) : Prop :=
  ∃ s', Ends p s s' ∧ s'.red = dot s.mem a b offset avl.toNat rounds.toNat ∧
    ∀ e ∈ s'.loads, Touches a b offset avl.toNat rounds.toNat e

/-! ## The loop -/

variable {U s} {lmul : Nat} {first : BitVec 32 → BitVec 32 → BitVec 32} {a b offset avl rounds : BitVec 32}
  {k : Nat}

/-- `t` is the state after `k` passes of a kernel started in `s`. -/
structure After (U : VectorUnit) (s : State) (lmul : Nat) (first : BitVec 32 → BitVec 32 → BitVec 32)
    (a b offset avl rounds : BitVec 32) (k : Nat) (t : State) : Prop where
  mem : t.mem = s.mem
  vl : t.vl = avl.toNat
  lmul : t.lmul = lmul
  ptrA : t.a = elemAddr a offset k 0
  ptrB : t.b = elemAddr b offset k 0
  iter : t.iter = rounds - 1 - k
  v0 : elem U t 0 0 = elem U s 0 0
  acc : ∀ i < avl.toNat, elem U t 24 i = first (strip s.mem a offset 0 i) (strip s.mem b offset 0 i) +
    ∑ r ∈ range k, strip s.mem a offset (r + 1) i * strip s.mem b offset (r + 1) i
  loads : ∀ e, e ∈ t.loads ↔ Touches a b offset avl.toNat (k + 1) e

theorem elemAddr_zero (p offset : BitVec 32) : elemAddr p offset 0 0 = p := by
  simp [elemAddr]

theorem elemAddr_succ (p offset : BitVec 32) (k : Nat) :
    elemAddr p offset k 0 + 4 * offset = elemAddr p offset (k + 1) 0 := by
  simp only [elemAddr, Nat.cast_add, Nat.cast_one, Nat.cast_zero]
  ring

theorem elemAddr_add (p offset : BitVec 32) (r i : Nat) :
    elemAddr p offset r 0 + 4 * i = elemAddr p offset r i := by
  simp only [elemAddr, Nat.cast_zero]
  ring

/-- The loads of one more round. -/
theorem touches_succ {e : Nat × BitVec 32} :
    Touches a b offset avl.toNat (k + 1) e ↔ Touches a b offset avl.toNat k e ∨
      (∃ i < avl.toNat, e = (8, elemAddr a offset k 0 + 4 * i)) ∨
        ∃ i < avl.toNat, e = (16, elemAddr b offset k 0 + 4 * i) := by
  simp only [Touches, elemAddr_add]
  constructor
  · rintro ⟨r, hr, i, hi, he⟩
    by_cases hrk : r < k
    · exact Or.inl ⟨r, hrk, i, hi, he⟩
    · obtain rfl : r = k := by omega
      exact Or.inr (he.imp (⟨i, hi, ·⟩) (⟨i, hi, ·⟩))
  · rintro (⟨r, hr, i, hi, he⟩ | ⟨i, hi, he⟩ | ⟨i, hi, he⟩)
    · exact ⟨r, by omega, i, hi, he⟩
    · exact ⟨k, by omega, i, hi, Or.inl he⟩
    · exact ⟨k, by omega, i, hi, Or.inr he⟩

theorem elem_pass_v0 {t : State} (h : Fits U t) (hl : 1 ≤ t.lmul) :
    elem U (pass U t offset) 0 0 = elem U t 0 0 := by
  have hpos : 0 < t.lmul * U.elems := Nat.mul_pos hl U.elems_pos
  let t₁ := vle32 U { t with a := t.a + 4 * offset } 8 (t.a + 4 * offset)
  let t₂ := vle32 U { t₁ with b := t.b + 4 * offset } 16 (t.b + 4 * offset)
  calc elem U (pass U t offset) 0 0 = elem U t₂ 0 0 :=
        elem_put_group (s := { t₂ with iter := t.iter - 1 }) h.vl_le h.lmul_le hpos (by omega)
    _ = elem U t₁ 0 0 :=
        elem_vle32_other (s := { t₁ with b := t.b + 4 * offset }) ⟨h.vl_le, h.lmul_le⟩ hpos (by omega)
    _ = elem U t 0 0 :=
        elem_vle32_other (s := { t with a := t.a + 4 * offset }) ⟨h.vl_le, h.lmul_le⟩ hpos (by omega)

theorem elem_pass_acc {t : State} (h : Fits U t) {i : Nat} (hi : i < t.vl) :
    elem U (pass U t offset) 24 i = elem U t 24 i +
      word t.mem (t.a + 4 * offset + 4 * i) * word t.mem (t.b + 4 * offset + 4 * i) := by
  have hgroup : i < t.lmul * U.elems := Nat.lt_of_lt_of_le hi h.vl_le
  let t₁ := vle32 U { t with a := t.a + 4 * offset } 8 (t.a + 4 * offset)
  let t₂ := vle32 U { t₁ with b := t.b + 4 * offset } 16 (t.b + 4 * offset)
  have h₁ : Fits U { t₁ with b := t.b + 4 * offset } := ⟨h.vl_le, h.lmul_le⟩
  have h₀ : Fits U { t with a := t.a + 4 * offset } := ⟨h.vl_le, h.lmul_le⟩
  have hmacc : elem U (pass U t offset) 24 i = elem U t₂ 8 i * elem U t₂ 16 i + elem U t₂ 24 i :=
    elem_put_self (s := { t₂ with iter := t.iter - 1 }) hi
  have hv8 : elem U t₂ 8 i = word t.mem (t.a + 4 * offset + 4 * i) :=
    (elem_vle32_other h₁ hgroup (by omega)).trans (elem_vle32_self (s := { t with a := _ }) hi)
  have hv16 : elem U t₂ 16 i = word t.mem (t.b + 4 * offset + 4 * i) :=
    elem_vle32_self (s := { t₁ with b := t.b + 4 * offset }) hi
  have hv24 : elem U t₂ 24 i = elem U t 24 i :=
    (elem_vle32_other h₁ hgroup (by omega)).trans (elem_vle32_other h₀ hgroup (by omega))
  rw [hmacc, hv8, hv16, hv24, BitVec.add_comm]

/-- **One pass.** -/
theorem after_pass {t : State} (hvl : avl.toNat ≤ lmul * U.elems) (hl : 1 ≤ lmul ∧ lmul ≤ 8)
    (h : After U s lmul first a b offset avl rounds k t) :
    After U s lmul first a b offset avl rounds (k + 1) (pass U t offset) := by
  have hfits : Fits U t := ⟨by rw [h.vl, h.lmul]; exact hvl, by rw [h.lmul]; exact hl.2⟩
  have ha : t.a + 4 * offset = elemAddr a offset (k + 1) 0 := by rw [h.ptrA, elemAddr_succ]
  have hb : t.b + 4 * offset = elemAddr b offset (k + 1) 0 := by rw [h.ptrB, elemAddr_succ]
  refine ⟨h.mem, h.vl, h.lmul, ha, hb, ?_, ?_, ?_, ?_⟩
  · change t.iter - 1 = rounds - 1 - ((k + 1 : Nat) : BitVec 32)
    rw [h.iter, Nat.cast_add, Nat.cast_one]
    ring
  · rw [elem_pass_v0 hfits (by rw [h.lmul]; exact hl.1), h.v0]
  · intro i hi
    rw [elem_pass_acc hfits (by rw [h.vl]; exact hi), h.acc i hi, ha, hb, elemAddr_add, elemAddr_add,
      h.mem, sum_range_succ, ← BitVec.add_assoc]
    rfl
  · intro e
    rw [touches_succ, ← h.loads e, ← ha, ← hb, ← h.vl]
    change e ∈ (vle32 U _ 16 _).loads ↔ _
    rw [mem_loads_vle32]
    change e ∈ (vle32 U _ 8 _).loads ∨ _ ↔ _
    rw [mem_loads_vle32, or_assoc]
    rfl

/-- **Up to the loop.** -/
theorem after_prologue (hvl : avl.toNat ≤ lmul * U.elems) (hl : 1 ≤ lmul ∧ lmul ≤ 8) :
    After U s lmul first a b offset avl rounds 0 (prologue U s lmul first a b avl rounds) := by
  have hset : U.vsetvl avl.toNat (lmul * U.elems) = avl.toNat := U.vsetvl_of_le _ _ hvl
  have hpos : 0 < lmul * U.elems := Nat.mul_pos hl.1 U.elems_pos
  let t₀ := vsetvli U { s with a := a, b := b, iter := rounds, loads := [] } lmul avl.toNat
  let t₁ := vle32 U t₀ 8 a
  let t₂ := vle32 U { t₁ with iter := rounds - 1 } 16 b
  have h₀ : Fits U t₀ := ⟨hset.trans_le hvl, hl.2⟩
  have h₁ : Fits U { t₁ with iter := rounds - 1 } := ⟨h₀.vl_le, hl.2⟩
  have hprologue : prologue U s lmul first a b avl rounds = vbinary U t₂ first 24 8 16 := rfl
  refine ⟨rfl, hset, rfl, (elemAddr_zero a offset).symm, (elemAddr_zero b offset).symm, ?_, ?_, ?_, ?_⟩
  · change rounds - 1 = rounds - 1 - ((0 : Nat) : BitVec 32)
    rw [Nat.cast_zero, sub_zero]
  · calc elem U (prologue U s lmul first a b avl rounds) 0 0 = elem U t₂ 0 0 :=
          elem_put_group (s := t₂) h₀.vl_le hl.2 hpos (by omega)
      _ = elem U t₁ 0 0 := elem_vle32_other h₁ hpos (by omega)
      _ = elem U s 0 0 := elem_vle32_other h₀ hpos (by omega)
  · intro i hi
    have hi₀ : i < t₀.vl := hi.trans_eq hset.symm
    have hgroup : i < lmul * U.elems := Nat.lt_of_lt_of_le hi hvl
    have hmul : elem U (vbinary U t₂ first 24 8 16) 24 i = first (elem U t₂ 8 i) (elem U t₂ 16 i) :=
      elem_put_self (s := t₂) hi₀
    have hv8 : elem U t₂ 8 i = word s.mem (a + 4 * i) :=
      (elem_vle32_other h₁ hgroup (by omega)).trans (elem_vle32_self hi₀)
    have hv16 : elem U t₂ 16 i = word s.mem (b + 4 * i) :=
      elem_vle32_self (s := { t₁ with iter := rounds - 1 }) hi₀
    rw [hprologue, hmul, hv8, hv16, range_zero, sum_empty, add_zero, strip, strip, ← elemAddr_add,
      ← elemAddr_add b, elemAddr_zero, elemAddr_zero]
  · intro e
    have hnone : ¬ Touches a b offset avl.toNat 0 e := fun ⟨r, hr, _⟩ => absurd hr (Nat.not_lt_zero r)
    have hloads : e ∈ t₀.loads ↔ False := by simp [t₀, vsetvli]
    rw [touches_succ, hprologue, elemAddr_zero, elemAddr_zero]
    change e ∈ (vle32 U _ 16 _).loads ↔ _
    rw [mem_loads_vle32]
    change e ∈ (vle32 U t₀ 8 a).loads ∨ _ ↔ _
    rw [mem_loads_vle32, or_assoc, hloads, iff_false_intro hnone]
    change (_ ∨ (∃ i < U.vsetvl _ _, _) ∨ ∃ i < U.vsetvl _ _, _) ↔ _
    rw [hset]

/-- The passes of the loop: with one round, the counter goes around. -/
def passes (rounds : BitVec 32) : Nat := if rounds.toNat = 1 then 2 ^ 32 else rounds.toNat - 1

theorem after_iterate (hvl : avl.toNat ≤ lmul * U.elems) (hl : 1 ≤ lmul ∧ lmul ≤ 8) (k : Nat) :
    After U s lmul first a b offset avl rounds k
      ((pass U · offset)^[k] (prologue U s lmul first a b avl rounds)) := by
  induction k with
  | zero => exact after_prologue hvl hl
  | succ k ih =>
    rw [Function.iterate_succ_apply']
    exact after_pass hvl hl ih

/-- When the counter is zero. -/
theorem iter_pos_iff (rounds : BitVec 32) {j : Nat} (hr : 1 ≤ rounds.toNat) (hj : 1 ≤ j)
    (hjk : j ≤ passes rounds) : rounds - 1 - (j : BitVec 32) > 0 ↔ j < passes rounds := by
  have hlt := rounds.isLt
  have hcast : ((j : BitVec 32)).toNat = j % 2 ^ 32 := BitVec.toNat_ofNat j 32
  rw [gt_iff_lt, BitVec.lt_def, BitVec.toNat_sub, BitVec.toNat_sub, hcast]
  unfold passes at hjk ⊢
  simp only [BitVec.ofNat_eq_ofNat, BitVec.toNat_ofNat]
  split at hjk <;> split <;> omega

/-- **The kernels end**, with `v0`, the first strip and as many rounds as the loop has passes. -/
theorem idotp_ends (hvl : avl.toNat ≤ lmul * U.elems) (hl : 1 ≤ lmul ∧ lmul ≤ 8) (hr : 1 ≤ rounds.toNat) :
    ∃ s', Ends (idotp U lmul first a b offset avl rounds) s s' ∧
      s'.red = elem U s 0 0 + ∑ i ∈ range avl.toNat,
        (first (strip s.mem a offset 0 i) (strip s.mem b offset 0 i) +
          ∑ r ∈ range (passes rounds), strip s.mem a offset (r + 1) i * strip s.mem b offset (r + 1) i) ∧
      ∀ e, e ∈ s'.loads ↔ Touches a b offset avl.toNat (passes rounds + 1) e := by
  have hpasses : 1 ≤ passes rounds := by
    unfold passes
    split <;> omega
  have hafter (k : Nat) : After U s lmul first a b offset avl rounds k
      ((pass U · offset)^[k] (prologue U s lmul first a b avl rounds)) := after_iterate hvl hl k
  have hend := hafter (passes rounds)
  refine ⟨_, (Ends.act _ s).seq ((Ends.doWhile_iterate hpasses ?_ ?_).seq (Ends.act (epilogue U) _)), ?_, ?_⟩
  · intro j hj hjk
    rw [decide_eq_true_iff, (hafter j).iter]
    exact (iter_pos_iff rounds hr hj (by omega)).mpr hjk
  · rw [decide_eq_false_iff_not, hend.iter]
    exact fun hpos => Nat.lt_irrefl _ ((iter_pos_iff rounds hr hpasses (Nat.le_refl _)).mp hpos)
  · change elem U (vredsum U _ 0 24 0) 0 0 = _
    rw [elem_vredsum rfl, hend.v0, hend.vl]
    congr 1
    exact sum_congr rfl fun i hi => hend.acc i (mem_range.mp hi)
  · intro e
    rw [← hend.loads e]
    change e ∈ (vredsum U _ 0 24 0).loads ↔ _
    unfold vredsum
    split <;> rfl

/-! ## When they are exact -/

/-- The extra rounds of a loop that has gone around cannot be told, for they are empty or all the first. -/
def LoopExact (offset avl rounds : BitVec 32) : Prop :=
  2 ≤ rounds.toNat ∨ avl.toNat = 0 ∨ 2 ^ 30 ∣ offset.toNat

theorem elemAddr_of_dvd (h : 2 ^ 30 ∣ offset.toNat) (p : BitVec 32) (r i : Nat) :
    elemAddr p offset r i = elemAddr p offset 0 i := by
  have hzero : 4 * offset = 0 := by
    apply BitVec.eq_of_toNat_eq
    rw [BitVec.toNat_mul]
    simp only [BitVec.ofNat_eq_ofNat, BitVec.toNat_ofNat]
    omega
  calc elemAddr p offset r i = p + 4 * offset * r + 4 * i := by
        unfold elemAddr
        ring
    _ = p + 4 * offset * (0 : Nat) + 4 * i := by rw [hzero, zero_mul, zero_mul]
    _ = elemAddr p offset 0 i := by
        unfold elemAddr
        ring

theorem passes_of_two_le (h : 2 ≤ rounds.toNat) : passes rounds + 1 = rounds.toNat := by
  unfold passes
  split <;> omega

/-- The loop's rounds and the first one are the dot product. -/
theorem sum_passes (hr : 1 ≤ rounds.toNat) (h : LoopExact offset avl rounds) (mem : BitVec 32 → BitVec 8) :
    ∑ i ∈ range avl.toNat, ∑ r ∈ range (passes rounds),
        strip mem a offset (r + 1) i * strip mem b offset (r + 1) i +
      ∑ i ∈ range avl.toNat, strip mem a offset 0 i * strip mem b offset 0 i =
        dot mem a b offset avl.toNat rounds.toNat := by
  by_cases h2 : 2 ≤ rounds.toNat
  · rw [dot, ← passes_of_two_le h2, sum_comm, sum_range_succ']
  · have hone : rounds.toNat = 1 := by omega
    have hpasses : passes rounds = 2 ^ 32 := if_pos hone
    rw [dot, hone, sum_range_one]
    rcases h.resolve_left h2 with hempty | hdvd
    · simp [hempty]
    · have hcard : ((2 ^ 32 : Nat) : BitVec 32) = 0 := by decide
      have hsame : ∀ i ∈ range avl.toNat, ∑ r ∈ range (passes rounds),
          strip mem a offset (r + 1) i * strip mem b offset (r + 1) i = 0 := by
        intro i _
        simp only [strip, elemAddr_of_dvd hdvd _ (_ + 1)]
        rw [sum_const, card_range, hpasses, nsmul_eq_mul, hcard, zero_mul]
      rw [sum_eq_zero hsame, zero_add]

/-- Round 1 loads an element that round 0 does not: its first or its last. -/
theorem exists_load_outside (hsome : 0 < avl.toNat) (hmax : avl.toNat ≤ 2 ^ 14)
    (hndvd : ¬ 2 ^ 30 ∣ offset.toNat) :
    ∃ i < avl.toNat, ¬ Touches a b offset avl.toNat 1 (8, elemAddr a offset 1 i) := by
  obtain ⟨i, hi, hout⟩ : ∃ i < avl.toNat, ∀ i' < avl.toNat, (offset.toNat + i) % 2 ^ 30 ≠ i' := by
    by_cases hlow : offset.toNat % 2 ^ 30 < avl.toNat
    · exact ⟨avl.toNat - 1, by omega, by omega⟩
    · exact ⟨0, hsome, by omega⟩
  refine ⟨i, hi, ?_⟩
  rintro ⟨r, hr, i', hi', he | he⟩
  · obtain rfl : r = 0 := by omega
    have haddr := congrArg Prod.snd he
    simp only [elemAddr, add_right_inj, Nat.cast_one, Nat.cast_zero, mul_one, mul_zero, zero_add] at haddr
    have hnat := congrArg BitVec.toNat haddr
    simp only [BitVec.toNat_mul, BitVec.toNat_add, BitVec.natCast_eq_ofNat, BitVec.ofNat_eq_ofNat,
      BitVec.toNat_ofNat] at hnat
    have hne := hout i' hi'
    omega
  · have hgroup : (8 : Nat) = 16 := congrArg Prod.fst he
    omega

/-- **When a kernel is exact.** -/
theorem idotp_exact_iff (hvl : avl.toNat ≤ lmul * U.elems) (hl : 1 ≤ lmul ∧ lmul ≤ 8)
    (hr : 1 ≤ rounds.toNat) :
    Exact s a b offset avl rounds (idotp U lmul first a b offset avl rounds) ↔
      LoopExact offset avl rounds ∧
        elem U s 0 0 + ∑ i ∈ range avl.toNat, first (strip s.mem a offset 0 i) (strip s.mem b offset 0 i) =
          ∑ i ∈ range avl.toNat, strip s.mem a offset 0 i * strip s.mem b offset 0 i := by
  obtain ⟨s', hends, hred, hloads⟩ := idotp_ends hvl hl hr
  have hsum (h : LoopExact offset avl rounds) :
      s'.red = dot s.mem a b offset avl.toNat rounds.toNat ↔
        elem U s 0 0 + ∑ i ∈ range avl.toNat, first (strip s.mem a offset 0 i) (strip s.mem b offset 0 i) =
          ∑ i ∈ range avl.toNat, strip s.mem a offset 0 i * strip s.mem b offset 0 i := by
    rw [hred, sum_add_distrib, ← add_assoc, ← sum_passes hr h, add_comm (∑ i ∈ _, ∑ r ∈ _, _),
      add_left_inj]
  constructor
  · rintro ⟨s'', hends', hdot, htouch⟩
    obtain rfl := hends.unique hends'
    have hloop : LoopExact offset avl rounds := by
      by_contra hnot
      obtain ⟨hone, hsome, hndvd⟩ : rounds.toNat = 1 ∧ 0 < avl.toNat ∧ ¬ 2 ^ 30 ∣ offset.toNat := by
        unfold LoopExact at hnot
        omega
      have hpasses : passes rounds = 2 ^ 32 := if_pos hone
      have hmax : avl.toNat ≤ 8 * 2048 := hvl.trans (Nat.mul_le_mul hl.2 U.elems_le)
      obtain ⟨i, hi, hout⟩ := exists_load_outside (a := a) (b := b) hsome hmax hndvd
      have hload := htouch _ ((hloads (8, elemAddr a offset 1 i)).mpr ⟨1, by omega, i, hi, Or.inl rfl⟩)
      exact hout (hone ▸ hload)
    exact ⟨hloop, (hsum hloop).mp hdot⟩
  · rintro ⟨hloop, hfirst⟩
    refine ⟨s', hends, (hsum hloop).mpr hfirst, fun e he => ?_⟩
    obtain ⟨r, hrlt, i, hi, he⟩ := (hloads e).mp he
    by_cases h2 : 2 ≤ rounds.toNat
    · exact ⟨r, by rwa [← passes_of_two_le h2], i, hi, he⟩
    · have hdvd := (hloop.resolve_left h2).resolve_left (by omega)
      rw [elemAddr_of_dvd hdvd a, elemAddr_of_dvd hdvd b] at he
      exact ⟨0, by omega, i, hi, he⟩

/-- With an integer product, the first strip adds what it is to add, so that `v0` has to be empty. -/
theorem integer_exact_iff (hvl : avl.toNat ≤ lmul * U.elems) (hl : 1 ≤ lmul ∧ lmul ≤ 8)
    (hr : 1 ≤ rounds.toNat) :
    Exact s a b offset avl rounds (idotp U lmul (· * ·) a b offset avl rounds) ↔
      LoopExact offset avl rounds ∧ elem U s 0 0 = 0 := by
  rw [idotp_exact_iff hvl hl hr, add_eq_right]

/-- The condition on `idotp_v32b_lmul1`: what `v0` holds makes up for the products in floating point. -/
def FirstStripExact (U : VectorUnit) (s : State) (a b offset avl : BitVec 32) : Prop :=
  elem U s 0 0 + ∑ i ∈ range avl.toNat, U.fmul (strip s.mem a offset 0 i) (strip s.mem b offset 0 i) =
    ∑ i ∈ range avl.toNat, strip s.mem a offset 0 i * strip s.mem b offset 0 i

/-- **When the four kernels are exact**, for every register content at entry, every memory and every argument
with a round at least and no more elements than a group has. -/
theorem idotp_kernels_exact_iff (U : VectorUnit) (s : State) (a b offset avl rounds : BitVec 32)
    (hr : 1 ≤ rounds.toNat) :
    (avl.toNat ≤ 8 * U.elems → (Exact s a b offset avl rounds (idotpV32bLmul8 U a b offset avl rounds) ↔
      LoopExact offset avl rounds ∧ elem U s 0 0 = 0)) ∧
    (avl.toNat ≤ 4 * U.elems → (Exact s a b offset avl rounds (idotpV32bLmul4 U a b offset avl rounds) ↔
      LoopExact offset avl rounds ∧ elem U s 0 0 = 0)) ∧
    (avl.toNat ≤ 2 * U.elems → (Exact s a b offset avl rounds (idotpV32bLmul2 U a b offset avl rounds) ↔
      LoopExact offset avl rounds ∧ elem U s 0 0 = 0)) ∧
    (avl.toNat ≤ 1 * U.elems → (Exact s a b offset avl rounds (idotpV32bLmul1 U a b offset avl rounds) ↔
      LoopExact offset avl rounds ∧ FirstStripExact U s a b offset avl)) :=
  ⟨fun hvl => integer_exact_iff hvl (by omega) hr, fun hvl => integer_exact_iff hvl (by omega) hr,
    fun hvl => integer_exact_iff hvl (by omega) hr, fun hvl => idotp_exact_iff hvl (by omega) hr⟩

/-- A unit of 512-bit registers that leaves the tail alone; its product is that of subnormal numbers of one
sign, which rounds to zero. -/
def spatz : VectorUnit where
  elems := 16
  vsetvl := min
  tail _ w := w
  fmul _ _ := 0
  elems_pos := by decide
  elems_le := by decide
  vsetvl_of_le _ _ h := Nat.min_eq_left h

/-- Zeros up to byte 16, and from there on every byte its address; `v0` holds `w`. -/
def entry (w : BitVec 32) : State where
  mem p := if p < 16 then 0 else p.setWidth 8
  vreg y := if y = 0 then w else 7
  vl := 0
  lmul := 1
  loads := []
  a := 0
  b := 0
  iter := 0
  red := 0

/-- Two rounds onto an empty `v0`: any first strip, and for single registers one of zeros. -/
theorem idotp_kernels_two_rounds :
    Exact (entry 0) 16 64 4 3 2 (idotpV32bLmul8 spatz 16 64 4 3 2) ∧
      Exact (entry 0) 0 0 4 3 2 (idotpV32bLmul1 spatz 0 0 4 3 2) := by
  obtain ⟨h8, -⟩ := idotp_kernels_exact_iff spatz (entry 0) 16 64 4 3 2 (by decide)
  obtain ⟨-, -, -, h1⟩ := idotp_kernels_exact_iff spatz (entry 0) 0 0 4 3 2 (by decide)
  exact ⟨(h8 (by decide)).mpr ⟨Or.inl (by decide), rfl⟩,
    (h1 (by decide)).mpr ⟨Or.inl (by decide), by unfold FirstStripExact; decide⟩⟩

/-- What an earlier call left in `v0` is added, and a single round makes the loop go around. -/
theorem idotp_kernels_inexact :
    ¬ Exact (entry 1) 16 64 4 3 2 (idotpV32bLmul8 spatz 16 64 4 3 2) ∧
      ¬ Exact (entry 0) 16 64 4 3 1 (idotpV32bLmul8 spatz 16 64 4 3 1) := by
  constructor
  · intro h
    obtain ⟨-, hv0⟩ := (integer_exact_iff (by decide) (by decide) (by decide)).mp h
    exact absurd hv0 (by decide)
  · intro h
    obtain ⟨hloop, -⟩ := (integer_exact_iff (by decide) (by decide) (by decide)).mp h
    unfold LoopExact at hloop
    revert hloop
    decide

end Idotp

end CachePool
