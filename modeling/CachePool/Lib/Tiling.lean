import Mathlib.Data.List.Basic
import Mathlib.Data.Int.Order.Basic

/-!
# Intervals laid end to end

* `Tiles` — a list of intervals, each starting where the one before ends.
* `Tiles.countP_eq` — every number of the range is in exactly one of them, and no other number is in any.
* `Tiles.bounds` — each of them lies in the range.
-/

set_option autoImplicit false

universe u

variable {γ : Type u} {lo hi : γ → Int}

/-- The intervals `[lo c, hi c]` cover the range from `a` to before `b`, in order and without gaps. -/
inductive Tiles (lo hi : γ → Int) (a : Int) : List γ → Int → Prop where
  | nil : Tiles lo hi a [] a
  | snoc {cs : List γ} {b : Int} {c : γ} (h : Tiles lo hi a cs b) (hlo : lo c = b) (hle : lo c ≤ hi c) :
      Tiles lo hi a (cs ++ [c]) (hi c + 1)

namespace Tiles

variable {a b : Int} {cs : List γ}

theorem le (h : Tiles lo hi a cs b) : a ≤ b := by
  induction h with
  | nil => exact Int.le_refl a
  | snoc h hlo hle ih => omega

theorem bounds (h : Tiles lo hi a cs b) {c : γ} (hc : c ∈ cs) : a ≤ lo c ∧ lo c ≤ hi c ∧ hi c < b := by
  induction h with
  | nil => cases hc
  | snoc h hlo hle ih =>
    have hab := h.le
    rcases List.mem_append.mp hc with hold | hnew
    · have hbounds := ih hold
      omega
    · rw [List.mem_singleton.mp hnew]
      omega

/-- **Each number once.** -/
theorem countP_eq (h : Tiles lo hi a cs b) (i : Int) :
    cs.countP (fun c => decide (lo c ≤ i ∧ i ≤ hi c)) = if a ≤ i ∧ i < b then 1 else 0 := by
  induction h with
  | nil =>
    have hnot : ¬ (a ≤ i ∧ i < a) := by omega
    rw [if_neg hnot, List.countP_nil]
  | snoc h hlo hle ih =>
    have hab := h.le
    rw [List.countP_append, ih, List.countP_singleton]
    simp only [decide_eq_true_eq]
    split_ifs <;> omega

end Tiles
