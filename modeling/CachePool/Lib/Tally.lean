import Mathlib.Algebra.BigOperators.Group.Finset.Basic
import Mathlib.Algebra.BigOperators.Fin
import Mathlib.Algebra.Order.BigOperators.Group.Finset
import Mathlib.Data.Fintype.Basic

/-!
# Summing a weight over the parties of a system

Each party has a local state; the tally of a weight is its sum over the parties' states.

* `tally_update` — one party's step changes the tally by the change of its own weight.
* `tally_eq_zero_iff` — the tally is zero when all weights are; `tally_congr` — it only depends on the
  weights.
* `eq_one_of_tally_eq`, `tally_eq_card`, `tally_le` — tallies of bounded weights.
* `le_tally`, `add_le_tally` — one party's weight, and that of two parties, is within the tally.
-/

set_option autoImplicit false

universe u v

section Tally

variable {ι : Type u} {α : Type v} [Fintype ι]

/-- The weights of all parties, added up. -/
def tally (w : α → Nat) (f : ι → α) : Nat := ∑ i, w (f i)

theorem tally_congr {w : α → Nat} {f g : ι → α} (h : ∀ i, w (f i) = w (g i)) : tally w f = tally w g :=
  Finset.sum_congr rfl fun i _ => h i

theorem tally_eq_zero_iff {w : α → Nat} {f : ι → α} : tally w f = 0 ↔ ∀ i, w (f i) = 0 := by
  simp [tally]

/-- Weights of at most one add up to the number of parties only where all are one. -/
theorem eq_one_of_tally_eq {w : α → Nat} {f : ι → α} (hw : ∀ a, w a ≤ 1) (h : tally w f = Fintype.card ι)
    (i : ι) : w (f i) = 1 := by
  have hsum : ∑ j, w (f j) = ∑ _j : ι, 1 := by simpa [tally] using h
  have hall := (Finset.sum_eq_sum_iff_of_le (fun j _ => hw (f j))).mp hsum
  exact hall i (Finset.mem_univ i)

theorem tally_eq_card {w : α → Nat} {f : ι → α} (h : ∀ i, w (f i) = 1) : tally w f = Fintype.card ι := by
  simp [tally, h]

theorem tally_le {w : α → Nat} {k : Nat} (hw : ∀ a, w a ≤ k) (f : ι → α) :
    tally w f ≤ Fintype.card ι * k := by
  have hle := Finset.sum_le_card_nsmul Finset.univ (fun i => w (f i)) k (fun i _ => hw (f i))
  simpa [tally] using hle

theorem le_tally (w : α → Nat) (f : ι → α) (i : ι) : w (f i) ≤ tally w f :=
  Finset.single_le_sum (f := fun i => w (f i)) (fun _ _ => Nat.zero_le _) (Finset.mem_univ i)

theorem add_le_tally [DecidableEq ι] (w : α → Nat) (f : ι → α) {i j : ι} (h : i ≠ j) :
    w (f i) + w (f j) ≤ tally w f := by
  unfold tally
  rw [← Finset.add_sum_erase _ _ (Finset.mem_univ i)]
  have hj : w (f j) ≤ ∑ k ∈ Finset.univ.erase i, w (f k) :=
    Finset.single_le_sum (f := fun k => w (f k)) (fun _ _ => Nat.zero_le _)
      (Finset.mem_erase.mpr ⟨h.symm, Finset.mem_univ j⟩)
  omega

/-- **One party's step.** -/
theorem tally_update [DecidableEq ι] (w : α → Nat) (f : ι → α) (i : ι) (a : α) :
    tally w (Function.update f i a) + w (f i) = tally w f + w a := by
  have hnew : tally w (Function.update f i a) = w a + ∑ j ∈ Finset.univ.erase i, w (f j) := by
    unfold tally
    rw [← Finset.add_sum_erase _ _ (Finset.mem_univ i), Function.update_self]
    congr 1
    apply Finset.sum_congr rfl
    intro j hj
    rw [Function.update_of_ne (Finset.ne_of_mem_erase hj)]
  have hold : tally w f = w (f i) + ∑ j ∈ Finset.univ.erase i, w (f j) :=
    (Finset.add_sum_erase _ _ (Finset.mem_univ i)).symm
  omega

end Tally
