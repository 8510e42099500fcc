import CachePool.Fft.Butterfly
import Mathlib.Algebra.Order.Group.Nat

/-!
# The stages that all cores share (`fft_p1`)

Before stage `s` of the transform the array has `2 ^ s` blocks, and the cores are divided into as many groups:
each group does the butterflies of one block, and each of its cores a part of them.

* `fftP1` — the kernel, and `p1Body` the body of its loop.
* `groupOf_eq` — which group a core belongs to.
* `does_fftP1` — what a core reads and writes.
-/

set_option autoImplicit false

namespace CachePool

namespace Fft

open Threads Linalg

universe u

variable {F : Type u} (U : FftUnit F)

/-- The two halves of a block at `p`, with imaginary parts `nfft` words further on. -/
def rows (p half nfft : Nat) : Rows := ⟨p, p + nfft, p + half, p + half + nfft⟩

/-- The loop over strips: its body. -/
def p1Body (l : Locals F) : Code Nat F (ForInStep (Locals F)) :=
  let s := vsetvli U.toVectorUnit l.hart 4 l.avl
  let vl := s.vl
  (wings U l.inp s).bind fun s =>
    (vle32 U.toVectorUnit s 8 l.reTwi).bind fun s => (vle32 U.toVectorUnit s 12 l.imTwi).bind fun s =>
      let s := twiddleRe U s
      (vse32 U.toVectorUnit s 16 l.out.reU).bind fun s => (vse32 U.toVectorUnit s 20 l.out.imU).bind fun s =>
        let s := twiddleIm U s
        (vse32 U.toVectorUnit s 24 l.out.reL).bind fun s =>
          (vse32 U.toVectorUnit s 28 l.out.imL).bind fun s =>
            .ret (.yield ⟨s, l.avl - vl, l.inp.add vl, l.out.add vl, l.reTwi + vl, l.imTwi + vl, l.seqIdx⟩)

/-- The group of core `cid`: the loop over `group`. -/
def groupOf (numCores stage cid : Nat) : Option Nat :=
  (List.range (1 <<< stage)).find? fun group => decide (cid < (numCores >>> stage) * (group + 1))

/-- `fft_p1`; a core of no group has no pointers. -/
def fftP1 (src buf twi nfft ntwi cid numCores stage len fuel : Nat) (s : Hart F) : Code Nat F (Locals F) :=
  match groupOf numCores stage cid with
  | none => .starved
  | some group =>
    let offset := (nfft >>> stage) * group
    let idx := cid - (numCores >>> stage) * group
    let half := nfft >>> (stage + 1)
    let reTwi := twi + idx * len
    whileDo (fun l => decide (l.avl > 0)) (p1Body U) fuel
      ⟨s, len, rows (src + offset + idx * len) half nfft, rows (buf + offset + idx * len) half nfft, reTwi,
        reTwi + ntwi, 0⟩

/-! ## What they do -/

variable {U} {m : Nat → F} {R : Set Nat}

/-- The outputs of butterfly `i` of two rows, with twiddle factors from `reTwi` and `imTwi` on. -/
def butterfly (U : FftUnit F) (m : Nat → F) (inp out : Rows) (reTwi imTwi i : Nat) : Set (Nat × F) :=
  outputs out i ((stages U).sum (inp.u m i) (inp.l m i))
    ((stages U).twist (some (m (reTwi + i), m (imTwi + i))) (inp.u m i) (inp.l m i))

theorem butterfly_add (inp out : Rows) (reTwi imTwi d i : Nat) :
    butterfly U m (inp.add d) (out.add d) (reTwi + d) (imTwi + d) i =
      butterfly U m inp out reTwi imTwi (d + i) := by
  simp only [butterfly, outputs, Rows.add, Rows.u, Rows.l, Nat.add_assoc]

/-- A strip. -/
theorem does_p1Body {l : Locals F} (havl : 0 < l.avl)
    (hread : ∀ i < l.avl, (l.inp.reU + i ∈ R ∧ l.inp.imU + i ∈ R ∧ l.inp.reL + i ∈ R ∧ l.inp.imL + i ∈ R) ∧
      l.reTwi + i ∈ R ∧ l.imTwi + i ∈ R) :
    ∃ j s', 0 < j ∧ j ≤ l.avl ∧
      Does m R (p1Body U l) {e | ∃ i < j, e ∈ butterfly U m l.inp l.out l.reTwi l.imTwi i}
        (.yield ⟨s', l.avl - j, l.inp.add j, l.out.add j, l.reTwi + j, l.imTwi + j, l.seqIdx⟩) := by
  have hle := U.vsetvl_le l.avl (4 * U.elems)
  have hpos := U.vsetvl_pos l.avl (4 * U.elems) havl (Nat.mul_pos (by decide) U.elems_pos)
  have hready := ready_vsetvli (U := U) (s := l.hart) l.avl
  obtain ⟨s₁, hwings, hw⟩ := does_wings (m := m) (R := R) (q := l.inp) hready fun i hi =>
    (hread i (Nat.lt_of_lt_of_le hi hle)).1
  have hvl : s₁.vl = U.vsetvl l.avl (4 * U.elems) := hw.vl
  have hsum := hw.sum
  have hdiff := hw.diff
  have hready₁ := hw.ready
  refine ⟨_, twiddleIm U (twiddleRe U (put U.toVectorUnit (put U.toVectorUnit s₁ 8 fun i => m (l.reTwi + i))
    12 fun i => m (l.imTwi + i))), hpos, hle, Does.congr (hwings.bind_empty ((does_vle32 ?_).bind_empty
      ((does_vle32 ?_).bind_empty ((does_vse32 _ _ _).bind ((does_vse32 _ _ _).bind ((does_vse32 _ _ _).bind
        ((does_vse32 _ _ _).bind (?_ : Does m R _ ∅ _)))))))) ?_⟩
  · exact fun i hi => (hread i (Nat.lt_of_lt_of_le (hvl ▸ hi) hle)).2.1
  · exact fun i hi => (hread i (Nat.lt_of_lt_of_le (hvl ▸ hi) hle)).2.2
  · exact .ret _
  · rw [Set.union_empty, ← hvl]
    refine outputs_rows (a := fun i => i) (u := fun i => (stages U).sum (l.inp.u m i) (l.inp.l m i))
      (l := fun i => (stages U).twist (some (m (l.reTwi + i), m (l.imTwi + i))) (l.inp.u m i) (l.inp.l m i))
      (fun i hi => ?_) fun i hi => ?_
    · exact (Prod.ext (el_twiddleRe hready₁ hi (.inl rfl)) (el_twiddleRe hready₁ hi (.inr rfl))).trans
        (hsum i (hw.vl ▸ hi))
    · exact el_twiddled hready₁ hi (hdiff i (hw.vl ▸ hi))

/-- The loop over strips. -/
theorem does_p1 {n k : Nat} (inp out : Rows) (reTwi imTwi : Nat) (hk : n < k) (s : Hart F)
    (hread : ∀ i < n, (inp.reU + i ∈ R ∧ inp.imU + i ∈ R ∧ inp.reL + i ∈ R ∧ inp.imL + i ∈ R) ∧
      reTwi + i ∈ R ∧ imTwi + i ∈ R) :
    ∃ l, Does m R (whileDo (fun l => decide (l.avl > 0)) (p1Body U) k ⟨s, n, inp, out, reTwi, imTwi, 0⟩)
      {e | ∃ i < n, e ∈ butterfly U m inp out reTwi imTwi i} l := by
  obtain ⟨s', hdoes⟩ := does_strips (m := m) (R := R) (b := p1Body U) (n := n)
    (fun d s => ⟨s, n - d, inp.add d, out.add d, reTwi + d, imTwi + d, 0⟩) (fun _ _ => rfl)
    (W := butterfly U m inp out reTwi imTwi) (by
      intro d s hd
      obtain ⟨j, s', hj, hle, hdoes⟩ := does_p1Body (U := U) (m := m) (R := R)
        (l := ⟨s, n - d, inp.add d, out.add d, reTwi + d, imTwi + d, 0⟩) (by show 0 < n - d; omega) (by
          intro i (hi : i < n - d)
          simp only [Rows.add, Nat.add_assoc]
          exact hread (d + i) (by omega))
      have hle : j ≤ n - d := hle
      refine ⟨j, s', hj, by omega, ?_⟩
      simp only [butterfly_add] at hdoes
      have hend : (⟨s', n - d - j, (inp.add d).add j, (out.add d).add j, reTwi + d + j, imTwi + d + j, 0⟩ :
          Locals F) =
          ⟨s', n - (d + j), inp.add (d + j), out.add (d + j), reTwi + (d + j), imTwi + (d + j), 0⟩ := by
        simp only [Rows.add, Nat.add_assoc, Nat.sub_sub]
      rwa [← hend]) hk s
  exact ⟨_, hdoes⟩

/-! ## Groups -/

/-- A core is in the group that its index is in. -/
theorem groupOf_eq {numCores stage group idx : Nat} (hgroup : group < 2 ^ stage)
    (hidx : idx < numCores >>> stage) :
    groupOf numCores stage ((numCores >>> stage) * group + idx) = some group := by
  rw [groupOf, List.find?_range_eq_some, Nat.one_shiftLeft]
  refine ⟨?_, List.mem_range.mpr hgroup, fun g hg => ?_⟩
  · simp only [decide_eq_true_eq, Nat.mul_succ]
    omega
  · have hle := Nat.mul_le_mul_left (numCores >>> stage) (Nat.succ_le_of_lt hg)
    simp only [Bool.not_eq_true', decide_eq_false_iff_not, Nat.not_lt]
    exact Nat.le_add_right_of_le hle

/-- A core of a group. -/
theorem does_fftP1 (src buf twi nfft ntwi : Nat) {numCores stage group idx len k : Nat}
    (hgroup : group < 2 ^ stage) (hidx : idx < numCores >>> stage) (hk : len < k) (s : Hart F)
    (hread : ∀ i < len, ∀ p, p = src + (nfft >>> stage) * group + idx * len + i →
      (p ∈ R ∧ p + nfft ∈ R ∧ p + nfft >>> (stage + 1) ∈ R ∧ p + nfft >>> (stage + 1) + nfft ∈ R) ∧
      twi + idx * len + i ∈ R ∧ twi + idx * len + i + ntwi ∈ R) :
    ∃ l, Does m R (fftP1 U src buf twi nfft ntwi ((numCores >>> stage) * group + idx) numCores stage len k s)
      {e | ∃ i < len, e ∈ butterfly U m
        (rows (src + (nfft >>> stage) * group + idx * len) (nfft >>> (stage + 1)) nfft)
        (rows (buf + (nfft >>> stage) * group + idx * len) (nfft >>> (stage + 1)) nfft)
        (twi + idx * len) (twi + idx * len + ntwi) i} l := by
  rw [fftP1, groupOf_eq hgroup hidx]
  simp only [Nat.add_sub_cancel_left]
  refine does_p1 _ _ _ _ hk s fun i hi => ?_
  obtain ⟨⟨h₁, h₂, h₃, h₄⟩, h₅, h₆⟩ := hread i hi _ rfl
  simp only [rows]
  generalize src + nfft >>> stage * group + idx * len = p at h₁ h₂ h₃ h₄ ⊢
  refine ⟨⟨h₁, ?_, ?_, ?_⟩, h₅, ?_⟩
  · rwa [Nat.add_right_comm]
  · rwa [Nat.add_right_comm]
  · rwa [Nat.add_right_comm, Nat.add_right_comm p]
  · rwa [Nat.add_right_comm]

end Fft

end CachePool
