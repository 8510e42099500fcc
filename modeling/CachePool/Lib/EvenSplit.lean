import Mathlib.Data.Nat.Notation
import Mathlib.Order.Basic
import Mathlib.Tactic.Ring

/-!
# Splitting a range among workers, the remainder one each to the first

* `share`, `first` — how many of `n` items worker `t` of `T` has, and how many come before its own.
* `existsUnique_owner` — every item has exactly one owner.
* `share_eq_zero_iff` — who has nothing to do.
-/

set_option autoImplicit false

namespace EvenSplit

variable {n T t : ℕ}

/-- The items of worker `t`. -/
def share (n T t : ℕ) : ℕ := if t < n % T then n / T + 1 else n / T

/-- The items of the workers before `t`. -/
def first (n T t : ℕ) : ℕ := if t < n % T then t * (n / T + 1) else t * (n / T) + n % T

theorem share_of_lt (h : t < n % T) : share n T t = n / T + 1 := if_pos h

theorem share_of_le (h : n % T ≤ t) : share n T t = n / T := if_neg (Nat.not_lt.mpr h)

theorem first_of_lt (h : t < n % T) : first n T t = t * (n / T + 1) := if_pos h

theorem first_of_le (h : n % T ≤ t) : first n T t = t * (n / T) + n % T := if_neg (Nat.not_lt.mpr h)

theorem first_zero (n T : ℕ) : first n T 0 = 0 := by
  unfold first
  split <;> omega

theorem first_succ (n T t : ℕ) : first n T (t + 1) = first n T t + share n T t := by
  have hmul : (t + 1) * (n / T) = t * (n / T) + n / T := Nat.succ_mul _ _
  have hmul' : t * (n / T + 1) = t * (n / T) + t := Nat.mul_succ _ _
  have hmul'' : (t + 1) * (n / T + 1) = t * (n / T) + n / T + (t + 1) := by rw [Nat.mul_succ, hmul]
  unfold first share
  split_ifs <;> omega

theorem first_length (hT : 0 < T) : first n T T = n := by
  rw [first_of_le (Nat.mod_lt n hT).le]
  exact Nat.div_add_mod n T

theorem first_mono {t' : ℕ} (h : t ≤ t') : first n T t ≤ first n T t' := by
  induction h with
  | refl => exact Nat.le_refl _
  | step _ ih =>
    rw [first_succ]
    omega

theorem first_add_share_le (ht : t < T) : first n T t + share n T t ≤ n := by
  rw [← first_succ]
  exact (first_mono ht).trans_eq (first_length (by omega))

/-- **Each item once.** -/
theorem existsUnique_owner (hT : 0 < T) {k : ℕ} (hk : k < n) :
    ∃! t, t < T ∧ first n T t ≤ k ∧ k < first n T t + share n T t := by
  have hex : ∃ t, k < first n T t := ⟨T, by rwa [first_length hT]⟩
  classical
  obtain ⟨t, ht⟩ : ∃ t, Nat.find hex = t + 1 := by
    apply Nat.exists_eq_succ_of_ne_zero
    intro h0
    have hzero := Nat.find_spec hex
    rw [h0, first_zero] at hzero
    omega
  have hlt : k < first n T (t + 1) := ht ▸ Nat.find_spec hex
  have hle : first n T t ≤ k := Nat.not_lt.mp (Nat.find_min hex (by omega))
  have htT : Nat.find hex ≤ T := Nat.find_min' hex (by rwa [first_length hT])
  refine ⟨t, ⟨by omega, hle, ?_⟩, ?_⟩
  · rwa [← first_succ]
  · rintro t' ⟨-, hle', hlt'⟩
    rw [← first_succ] at hlt'
    by_contra hne
    rcases Nat.lt_or_gt_of_ne hne with hbefore | hbehind
    · have hmono : first n T (t' + 1) ≤ first n T t := first_mono hbefore
      omega
    · have hmono : first n T (t + 1) ≤ first n T t' := first_mono hbehind
      omega

theorem share_eq_zero_iff (hT : 0 < T) : share n T t = 0 ↔ n < T ∧ n ≤ t := by
  unfold share
  constructor
  · intro h
    have hrem := Nat.mod_lt n hT
    split at h
    · exact absurd h (Nat.succ_ne_zero _)
    · have hlt : n < T := (Nat.div_eq_zero_iff_lt hT).mp h
      have hmod := Nat.mod_eq_of_lt hlt
      omega
  · rintro ⟨hlt, hle⟩
    have hmod := Nat.mod_eq_of_lt hlt
    rw [if_neg (by omega)]
    exact Nat.div_eq_of_lt hlt

/-- With fewer items than workers, the first ones have one each. -/
theorem of_lt (hlt : n < T) (ht : t < n) : first n T t = t ∧ share n T t = 1 := by
  have hmod := Nat.mod_eq_of_lt hlt
  have hdiv := Nat.div_eq_of_lt hlt
  rw [first_of_lt (by omega), share_of_lt (by omega), hdiv]
  omega

end EvenSplit
