import Mathlib.Data.List.Perm.Basic
import Mathlib.Tactic

/-!
# Lists used as bags

Things in flight whose order is not fixed are kept in a list, and `draw` takes out the one at a
chosen position.

* `perm_of_draw` — drawing takes out exactly one occurrence.
-/

set_option autoImplicit false

universe u

namespace Bag

variable {α : Type u}

/-- The element at position `i` and the bag without it. -/
def draw (l : List α) (i : Nat) : Option (α × List α) := l[i]?.map fun a => (a, l.eraseIdx i)

@[simp] theorem draw_nil (i : Nat) : draw ([] : List α) i = none := rfl

@[simp] theorem draw_cons_zero (a : α) (l : List α) : draw (a :: l) 0 = some (a, l) := rfl

theorem perm_of_draw {l l' : List α} {i : Nat} {a : α} (h : draw l i = some (a, l')) :
    l.Perm (a :: l') := by
  unfold draw at h
  obtain ⟨b, hb, heq⟩ := Option.map_eq_some_iff.mp h
  obtain ⟨hi, rfl⟩ := List.getElem?_eq_some_iff.mp hb
  cases heq
  exact (List.getElem_cons_eraseIdx_perm hi).symm

end Bag
