import Mathlib.Data.BitVec
import Mathlib.Algebra.BigOperators.Intervals

/-!
# The hart that the dot products of `kernel/idotp.c` run on

Every vector instruction of the kernels works on 32-bit elements, so the register file is its elements: those
of `v`*r* begin at `r * elems`, and a group of registers is the stretch of its members.

* `VectorUnit` — the length of a register, `vsetvli`, the tail, and the single-precision product.
* `vsetvli`, `vle32`, `vbinary`, `vmacc`, `vredsum`, `vmvXS` — the instructions.
* `elem_put_self`, `elem_put_other` — what a write to a group leaves where.
-/

set_option autoImplicit false

namespace CachePool

namespace Idotp

open Finset

/-- `elems` is `VLEN / 32`, at most the maximum of the instruction set.  `vsetvl avl vlmax` is the vector
length for `avl` requested elements.  `tail` is what an element of the tail becomes: the policy is agnostic.
`fmul` is the product of two words taken as single-precision numbers. -/
structure VectorUnit where
  elems : Nat
  vsetvl : Nat → Nat → Nat
  tail : Nat → BitVec 32 → BitVec 32
  fmul : BitVec 32 → BitVec 32 → BitVec 32
  elems_pos : 0 < elems
  elems_le : elems ≤ 2048
  vsetvl_of_le : ∀ avl max, avl ≤ max → vsetvl avl max = avl

/-- Memory is bytes.  `loads` are the elements loaded, each with the register group it was loaded for; `a`,
`b`, `iter` and `red` are variables of the kernels. -/
structure State where
  mem : BitVec 32 → BitVec 8
  vreg : Nat → BitVec 32
  vl : Nat
  lmul : Nat
  loads : List (Nat × BitVec 32)
  a : BitVec 32
  b : BitVec 32
  iter : BitVec 32
  red : BitVec 32

/-- The word at `p`. -/
def word (mem : BitVec 32 → BitVec 8) (p : BitVec 32) : BitVec 32 :=
  mem (p + 3) ++ mem (p + 2) ++ mem (p + 1) ++ mem p

variable (U : VectorUnit) (s : State)

/-- Element `i` of the group at `v`*r*. -/
def elem (r i : Nat) : BitVec 32 := s.vreg (r * U.elems + i)

/-- The elements of the register file after a write of `f` to the group at `v`*r*. -/
def put (r : Nat) (f : Nat → BitVec 32) : Nat → BitVec 32 := fun y =>
  if r * U.elems ≤ y ∧ y < r * U.elems + s.vl then f (y - r * U.elems)
  else if r * U.elems + s.vl ≤ y ∧ y < r * U.elems + s.lmul * U.elems then U.tail y (s.vreg y)
  else s.vreg y

/-- `vsetvli vl, avl, e32, m`*lmul*`, ta, ma`. -/
def vsetvli (lmul avl : Nat) : State := { s with vl := U.vsetvl avl (lmul * U.elems), lmul := lmul }

/-- `vle32.v v`*r*`, (p)`. -/
def vle32 (r : Nat) (p : BitVec 32) : State :=
  { s with
    vreg := put U s r fun i => word s.mem (p + 4 * i)
    loads := s.loads ++ (List.range s.vl).map fun (i : Nat) => (r, p + 4 * i) }

/-- `vmul.vv v`*rd*`, v`*r1*`, v`*r2* and the like. -/
def vbinary (op : BitVec 32 → BitVec 32 → BitVec 32) (rd r1 r2 : Nat) : State :=
  { s with vreg := put U s rd fun i => op (elem U s r1 i) (elem U s r2 i) }

/-- `vmacc.vv v`*rd*`, v`*r1*`, v`*r2*. -/
def vmacc (rd r1 r2 : Nat) : State :=
  { s with vreg := put U s rd fun i => elem U s r1 i * elem U s r2 i + elem U s rd i }

/-- `vredsum.vs v`*rd*`, v`*r2*`, v`*r1*: element 0 of `r1` and all of `r2`.  The rest of the register is
tail, and with an empty vector nothing is written. -/
def vredsum (rd r2 r1 : Nat) : State :=
  if s.vl = 0 then s
  else
    { s with
      vreg := fun y =>
        if y = rd * U.elems then elem U s r1 0 + ∑ i ∈ range s.vl, elem U s r2 i
        else if rd * U.elems < y ∧ y < rd * U.elems + U.elems then U.tail y (s.vreg y)
        else s.vreg y }

/-- `vmv.x.s`, into `red`. -/
def vmvXS (r : Nat) : State := { s with red := elem U s r 0 }

/-! ## What a write leaves where -/

variable {U s} {r r' i : Nat} {f : Nat → BitVec 32}

theorem elem_put_self (hi : i < s.vl) : elem U { s with vreg := put U s r f } r i = f i := by
  have hin : r * U.elems ≤ r * U.elems + i ∧ r * U.elems + i < r * U.elems + s.vl := by omega
  simp only [elem, put, if_pos hin, Nat.add_sub_cancel_left]

/-- Elements outside the group. -/
theorem elem_put_other (hvl : s.vl ≤ s.lmul * U.elems)
    (hout : r' * U.elems + i < r * U.elems ∨ r * U.elems + s.lmul * U.elems ≤ r' * U.elems + i) :
    elem U { s with vreg := put U s r f } r' i = elem U s r' i := by
  have hvec : ¬ (r * U.elems ≤ r' * U.elems + i ∧ r' * U.elems + i < r * U.elems + s.vl) := by omega
  have htail : ¬ (r * U.elems + s.vl ≤ r' * U.elems + i ∧
      r' * U.elems + i < r * U.elems + s.lmul * U.elems) := by omega
  simp only [elem, put, if_neg hvec, if_neg htail]

/-- Groups that start eight registers apart do not meet. -/
theorem elem_put_group (hvl : s.vl ≤ s.lmul * U.elems) (hl : s.lmul ≤ 8) (hi : i < s.lmul * U.elems)
    (hr : r' + 8 ≤ r ∨ r + 8 ≤ r') : elem U { s with vreg := put U s r f } r' i = elem U s r' i := by
  have hgroup : s.lmul * U.elems ≤ 8 * U.elems := Nat.mul_le_mul_right _ hl
  apply elem_put_other hvl
  rcases hr with hr | hr
  · have hmul := Nat.mul_le_mul_right U.elems hr
    rw [Nat.add_mul] at hmul
    omega
  · have hmul := Nat.mul_le_mul_right U.elems hr
    rw [Nat.add_mul] at hmul
    omega

/-- A unit state whose vectors fit into their groups, and these do not reach the next of the kernels. -/
structure Fits (U : VectorUnit) (s : State) : Prop where
  vl_le : s.vl ≤ s.lmul * U.elems
  lmul_le : s.lmul ≤ 8

theorem elem_vle32_self {p : BitVec 32} (hi : i < s.vl) :
    elem U (vle32 U s r p) r i = word s.mem (p + 4 * i) :=
  elem_put_self hi

theorem elem_vle32_other {p : BitVec 32} (h : Fits U s) (hi : i < s.lmul * U.elems)
    (hr : r' + 8 ≤ r ∨ r + 8 ≤ r') : elem U (vle32 U s r p) r' i = elem U s r' i :=
  elem_put_group h.vl_le h.lmul_le hi hr

theorem mem_loads_vle32 {p : BitVec 32} {e : Nat × BitVec 32} :
    e ∈ (vle32 U s r p).loads ↔ e ∈ s.loads ∨ ∃ i < s.vl, e = (r, p + 4 * i) := by
  simp only [vle32, List.mem_append, List.mem_map, List.mem_range]
  exact or_congr_right (exists_congr fun i => and_congr_right fun _ => eq_comm)

theorem elem_vredsum {rd r1 r2 : Nat} (hrd : rd = r1) :
    elem U (vredsum U s rd r2 r1) rd 0 = elem U s r1 0 + ∑ i ∈ range s.vl, elem U s r2 i := by
  unfold vredsum
  split
  · next hvl => simp [hvl, hrd]
  · simp [elem]

end Idotp

end CachePool
