import Mathlib.Data.List.Rotate

/-!
# Arbitration from a given priority

* `firstFrom` — the first valid input, searched from a start on and around.
* `firstFrom_eq_none_iff`, `valid_of_firstFrom` — it grants one of the valid inputs as long as there is one.
* `firstFrom_of_valid` — an input that is valid when the search starts at it is granted.
-/

set_option autoImplicit false

namespace Arbiter

/-- The first valid one of `n` inputs from `rr` on. -/
def firstFrom (n rr : Nat) (valid : Nat → Bool) : Option Nat := ((List.range n).rotate rr).find? valid

variable {n rr g : Nat} {valid : Nat → Bool}

theorem firstFrom_eq_none_iff : firstFrom n rr valid = none ↔ ∀ i < n, valid i = false := by
  unfold firstFrom
  rw [List.find?_eq_none]
  constructor
  · intro h i hi
    have hmem : i ∈ (List.range n).rotate rr := List.mem_rotate.mpr (List.mem_range.mpr hi)
    exact Bool.eq_false_iff.mpr (h i hmem)
  · intro h i hi
    have hlt : i < n := List.mem_range.mp (List.mem_rotate.mp hi)
    rw [h i hlt]
    exact Bool.false_ne_true

theorem lt_of_firstFrom (h : firstFrom n rr valid = some g) : g < n :=
  List.mem_range.mp (List.mem_rotate.mp (List.mem_of_find?_eq_some h))

theorem valid_of_firstFrom (h : firstFrom n rr valid = some g) : valid g = true := List.find?_some h

theorem firstFrom_of_valid (hrr : rr < n) (h : valid rr = true) : firstFrom n rr valid = some rr := by
  have hdrop : (List.range n).drop rr = rr :: (List.range n).drop (rr + 1) := by
    rw [List.drop_eq_getElem_cons (by simpa using hrr), List.getElem_range]
  unfold firstFrom
  rw [List.rotate_eq_drop_append_take (by simpa using hrr.le), hdrop, List.cons_append,
    List.find?_cons_of_pos h]

end Arbiter
