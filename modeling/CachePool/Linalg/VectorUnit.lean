import CachePool.Lib.Threads

/-!
# The hart that the single-precision kernels run on (`fmatmul.c`, `gemv.c`)

Memory is words of 32 bits, and an address counts words, as the pointers of the kernels do.  The elements of
`v`*r* begin at `r * elems` of the register file.  Arithmetic is whatever the unit does: nothing here depends
on how it rounds.

* `VectorUnit` — the length of a register, `vsetvli`, the tail, and the arithmetic of single words.
* `vsetvli`, `vle32`, `vse32`, `vfmulVf`, `vfmaccVf`, `vmvVi` — the instructions; those that access the memory
  do so element by element.
* `does_vle32`, `does_vse32` — what the two read, write and leave in the registers.
-/

set_option autoImplicit false

namespace CachePool

namespace Linalg

open Threads

universe u

/-- `elems` is `VLEN / 32`.  `vsetvl avl vlmax` is the vector length for `avl` requested elements.  `tail` is
what an element of the tail becomes: the policy is agnostic.  `fmacc x y d` is `x * y + d`, and `zero` the
word 0. -/
structure VectorUnit (F : Type u) where
  elems : Nat
  vsetvl : Nat → Nat → Nat
  tail : Nat → F → F
  fmul : F → F → F
  fmacc : F → F → F → F
  zero : F
  elems_pos : 0 < elems
  vsetvl_le : ∀ avl max, vsetvl avl max ≤ avl
  vsetvl_le_max : ∀ avl max, vsetvl avl max ≤ max
  vsetvl_pos : ∀ avl max, 0 < avl → 0 < max → 0 < vsetvl avl max

/-- A unit of two elements that calculates with natural numbers. -/
def smallUnit : VectorUnit Nat :=
  ⟨2, min, fun _ x => x, fun x y => x * y, fun x y d => x * y + d, 0, by decide, Nat.min_le_left,
    Nat.min_le_right, fun _ _ h h' => Nat.lt_min.mpr ⟨h, h'⟩⟩

/-- The vector registers, and what `vsetvli` has set. -/
structure Hart (F : Type u) where
  vreg : Nat → F
  vl : Nat
  lmul : Nat

variable {F : Type u} (U : VectorUnit F) (s : Hart F)

/-- Element `i` of the group at `v`*r*. -/
def elem (r i : Nat) : F := s.vreg (r * U.elems + i)

/-- The registers after a write of `f` to the group at `v`*r*. -/
def put (r : Nat) (f : Nat → F) : Hart F :=
  { s with
    vreg := fun y =>
      if r * U.elems ≤ y ∧ y < r * U.elems + s.vl then f (y - r * U.elems)
      else if r * U.elems + s.vl ≤ y ∧ y < r * U.elems + s.lmul * U.elems then U.tail y (s.vreg y)
      else s.vreg y }

/-- `vsetvli vl, avl, e32, m`*lmul*`, ta, ma`. -/
def vsetvli (lmul avl : Nat) : Hart F := { s with vl := U.vsetvl avl (lmul * U.elems), lmul := lmul }

/-- `vle32.v v`*r*`, (p)`. -/
def vle32 (r p : Nat) : Code Nat F (Hart F) :=
  (forUp s.vl (fun i x => .load (p + i) fun v => .ret (Function.update x i v)) (elem U s r)).bind fun x =>
    .ret (put U s r x)

/-- `vse32.v v`*r*`, (p)`. -/
def vse32 (r p : Nat) : Code Nat F (Hart F) :=
  forUp s.vl (fun i s => .store (p + i) (elem U s r i) (.ret s)) s

/-- `vfmul.vf v`*rd*`, v`*r*`, t`. -/
def vfmulVf (rd r : Nat) (t : F) : Hart F := put U s rd fun i => U.fmul (elem U s r i) t

/-- `vfmacc.vf v`*rd*`, t, v`*r*. -/
def vfmaccVf (rd : Nat) (t : F) (r : Nat) : Hart F :=
  put U s rd fun i => U.fmacc t (elem U s r i) (elem U s rd i)

/-- `vmv.v.i v`*rd*`, 0`. -/
def vmvVi (rd : Nat) : Hart F := put U s rd fun _ => U.zero

/-! ## What a write leaves where -/

variable {U s} {r r' i p : Nat} {f : Nat → F}

@[simp] theorem put_vl : (put U s r f).vl = s.vl := rfl

@[simp] theorem put_lmul : (put U s r f).lmul = s.lmul := rfl

theorem elem_put_self (hi : i < s.vl) : elem U (put U s r f) r i = f i := by
  have hin : r * U.elems ≤ r * U.elems + i ∧ r * U.elems + i < r * U.elems + s.vl := by omega
  simp only [elem, put, if_pos hin, Nat.add_sub_cancel_left]

/-- Groups that do not overlap. -/
theorem elem_put_of_apart (hvl : s.vl ≤ s.lmul * U.elems) (hi : i < s.vl)
    (hr : r' + s.lmul ≤ r ∨ r + s.lmul ≤ r') : elem U (put U s r f) r' i = elem U s r' i := by
  have hapart : r' * U.elems + i < r * U.elems ∨ r * U.elems + s.lmul * U.elems ≤ r' * U.elems + i := by
    rcases hr with hr | hr
    · have hmul := Nat.mul_le_mul_right U.elems hr
      rw [Nat.add_mul] at hmul
      omega
    · have hmul := Nat.mul_le_mul_right U.elems hr
      rw [Nat.add_mul] at hmul
      omega
  have hvec : ¬ (r * U.elems ≤ r' * U.elems + i ∧ r' * U.elems + i < r * U.elems + s.vl) := by omega
  have htail : ¬ (r * U.elems + s.vl ≤ r' * U.elems + i ∧
      r' * U.elems + i < r * U.elems + s.lmul * U.elems) := by omega
  simp only [elem, put, if_neg hvec, if_neg htail]

/-- Only the elements below the vector length are written. -/
theorem put_congr {g : Nat → F} (h : ∀ i < s.vl, f i = g i) : put U s r f = put U s r g := by
  unfold put
  congr 1
  funext y
  by_cases hy : r * U.elems ≤ y ∧ y < r * U.elems + s.vl
  · rw [if_pos hy, if_pos hy, h _ (by omega)]
  · rw [if_neg hy, if_neg hy]

/-! ## Loads and stores -/

variable {m : Nat → F} {R : Set Nat}

/-- A load of `s.vl` words. -/
theorem does_vle32 (hread : ∀ i < s.vl, p + i ∈ R) :
    Does m R (vle32 U s r p) ∅ (put U s r fun i => m (p + i)) := by
  obtain ⟨x, hdoes, hx⟩ := Does.forUp (m := m) (R := R)
    (b := fun i (x : Nat → F) => .load (p + i) fun v => .ret (Function.update x i v))
    (I := fun n x => ∀ i < n, x i = m (p + i)) (W := fun _ => ∅) (s := elem U s r) (n := s.vl)
    (fun i hi => absurd hi (Nat.not_lt_zero i)) (by
      intro n x hn hx
      refine ⟨_, .load (hread n hn) (.ret _), fun i hi => ?_⟩
      by_cases hin : i = n
      · subst hin
        rw [Function.update_self]
      · rw [Function.update_of_ne hin]
        exact hx i (by omega))
  refine ((hdoes.congr (by simp)).bind_empty (W := ∅) ?_)
  rw [put_congr hx]
  exact .ret _

/-- A store of `s.vl` words. -/
theorem does_vse32 (s : Hart F) (r p : Nat) :
    Does m R (vse32 U s r p) {e | ∃ i < s.vl, e = (p + i, elem U s r i)} s := by
  obtain ⟨s', hdoes, rfl⟩ := Does.forUp (m := m) (R := R)
    (b := fun i (s : Hart F) => .store (p + i) (elem U s r i) (.ret s))
    (I := fun _ s' => s' = s) (W := fun i => {(p + i, elem U s r i)}) (n := s.vl) rfl (by
      rintro n _ hn rfl
      exact ⟨_, (Does.store (.ret _)).congr (by simp), rfl⟩)
  exact hdoes.congr (by simp)

end Linalg

end CachePool
