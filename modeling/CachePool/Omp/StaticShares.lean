import CachePool.Omp.StaticInit

/-!
# Bounds that agree with the shares up to overflow

The functions for static scheduling place the bounds of a thread where its share is, except that the remainder
is not multiplied by the increment and that the values wrap around.

* `Follows` — what the bounds have in common, for values in a window of `2 * H`.
* `Follows.partition_iff` — when such bounds partition the loop.
-/

set_option autoImplicit false

namespace CachePool

namespace Omp

open CInt EvenSplit

variable {H n T t : Nat} {base lower incr : Int} {r : Nat → Bounds}

/-- Bounds in the window from `base` on, equal to those of the code up to multiples of `2 * H`. -/
structure Follows (H : Nat) (base lower : Int) (n T : Nat) (incr : Int) (r : Nat → Bounds) : Prop where
  value_mem : ∀ k : Nat, k < n → base ≤ lower + k * incr ∧ lower + k * incr < base + 2 * H
  plower_mem : ∀ t, t < T → base ≤ (r t).plower ∧ (r t).plower < base + 2 * H
  pupper_mem : ∀ t, t < T → base ≤ (r t).pupper ∧ (r t).pupper < base + 2 * H
  plower_dvd : ∀ t, t < T → (2 * H : Int) ∣ (r t).plower - (lower + offset n T incr t)
  pupper_dvd : ∀ t, t < T → (2 * H : Int) ∣ (r t).pupper - ((r t).plower + share n T t * incr - incr)
  flag_pupper : ∀ t, t < T → (r t).plastiter = true → (r t).pupper = lower + (n - 1) * incr
  flag_iff : ∀ t, t < T → ∀ k : Nat, k < n → (r t).plower = lower + k * incr →
    ((r t).plastiter = true ↔
      (r t).pupper = lower + (n - 1) * incr ∧ (r t).plower ≤ lower + (n - 1) * incr)

/-! ## The offset is that of the share -/

theorem offset_eq (h : t < n % T ∨ T ∣ n ∨ incr = 1) : offset n T incr t = first n T t * incr := by
  by_cases ht : t < n % T
  · rw [offset_of_lt ht, first_of_lt ht]
    push_cast
    ring
  · have hle := Nat.not_lt.mp ht
    rw [offset_of_le hle, first_of_le hle]
    rcases h with hlt | hdvd | rfl
    · exact absurd hlt ht
    · rw [Nat.mod_eq_zero_of_dvd hdvd]
      push_cast
      ring
    · push_cast
      ring

theorem offset_zero (n T : Nat) (incr : Int) : offset n T incr 0 = 0 := by
  unfold offset
  split
  · simp
  · next h => simp [Nat.eq_zero_of_not_pos h]

/-- The values of a loop are in the window that its bounds are in. -/
theorem value_mem_of_bounds {upper : Int} (hupper : upper = lower + (n - 1) * incr)
    (hlower : base ≤ lower ∧ lower < base + 2 * H) (hupper' : base ≤ upper ∧ upper < base + 2 * H) {k : Nat}
    (hk : k < n) : base ≤ lower + k * incr ∧ lower + k * incr < base + 2 * H := by
  have hbetween := steps_between incr (show k ≤ n - 1 by omega)
  rw [Nat.cast_pred (by omega)] at hbetween
  omega

theorem lt_mod_of_share_ne_zero (hlt : n < T) (hshare : share n T t ≠ 0) : t < n % T := by
  rw [Nat.mod_eq_of_lt hlt]
  by_contra hle
  exact hshare ((share_eq_zero_iff (by omega)).mpr ⟨hlt, Nat.not_lt.mp hle⟩)

namespace Follows

theorem plower_eq (h : Follows H base lower n T incr r) (hright : n < T ∨ T ∣ n ∨ incr = 1) (ht : t < T)
    (hshare : share n T t ≠ 0) : (r t).plower = lower + first n T t * incr := by
  have hoffset : offset n T incr t = first n T t * incr := by
    apply offset_eq
    rcases hright with hlt | hright
    · exact Or.inl (lt_mod_of_share_ne_zero hlt hshare)
    · exact Or.inr hright
  have hle := first_add_share_le ht (n := n)
  have hvalue := h.value_mem (first n T t) (by omega)
  have hmem := h.plower_mem t ht
  have hdvd := h.plower_dvd t ht
  rw [hoffset] at hdvd
  exact eq_of_dvd hdvd (by omega) (by omega)

theorem pupper_eq (h : Follows H base lower n T incr r) (hright : n < T ∨ T ∣ n ∨ incr = 1) (ht : t < T)
    (hshare : share n T t ≠ 0) : (r t).pupper = lower + (first n T t + share n T t - 1) * incr := by
  have hle := first_add_share_le ht (n := n)
  have hvalue := h.value_mem (first n T t + share n T t - 1) (by omega)
  have hmem := h.pupper_mem t ht
  have hdvd := h.pupper_dvd t ht
  have hcast : ((first n T t + share n T t - 1 : Nat) : Int) = first n T t + share n T t - 1 := by omega
  have hlast : lower + first n T t * incr + share n T t * incr - incr =
      lower + (first n T t + share n T t - 1) * incr := by ring
  rw [hcast] at hvalue
  rw [h.plower_eq hright ht hshare, hlast] at hdvd
  exact eq_of_dvd hdvd (by omega) (by omega)

/-- The flag of a thread with a share. -/
theorem plastiter_iff (h : Follows H base lower n T incr r) (hincr : incr ≠ 0)
    (hright : n < T ∨ T ∣ n ∨ incr = 1) (hsign : 0 < incr ∨ share n T t = 1) (ht : t < T)
    (hshare : share n T t ≠ 0) : (r t).plastiter = true ↔ first n T t + share n T t = n := by
  have hle := first_add_share_le ht (n := n)
  have hplower := h.plower_eq hright ht hshare
  rw [h.flag_iff t ht (first n T t) (by omega) hplower, h.pupper_eq hright ht hshare, hplower]
  constructor
  · rintro ⟨hlast, -⟩
    have hmul : ((first n T t : Int) + share n T t - 1) * incr = (n - 1) * incr := Int.add_left_cancel hlast
    have hcancel := mul_right_cancel₀ hincr hmul
    omega
  · intro hlast
    have hcast : (first n T t : Int) + share n T t = n := by exact_mod_cast hlast
    refine ⟨by rw [hcast], ?_⟩
    rcases hsign with hpos | hone
    · have hmono : (first n T t : Int) * incr ≤ (n - 1) * incr :=
        mul_le_mul_of_nonneg_right (by omega) hpos.le
      omega
    · have hfirst : (first n T t : Int) = n - 1 := by omega
      rw [hfirst]

/-! ## What a partition needs -/

/-- The values of the loop are less than `2 * H` apart. -/
theorem width (h : Follows H base lower n T incr r) (hn : 0 < n) :
    ((n : Int) - 1) * incr < 2 * H ∧ -(((n : Int) - 1) * incr) < 2 * H := by
  have hfirst := h.value_mem 0 hn
  have hlast := h.value_mem (n - 1) (by omega)
  rw [Nat.cast_pred hn] at hlast
  simp only [Nat.cast_zero, Int.zero_mul, Int.add_zero] at hfirst
  omega

end Follows

/-- A distance of `m` steps, short of at most `m`, that is not a multiple of `2 * H`. -/
theorem not_dvd_sub_mul (hincr : incr ≠ 0) (hone : incr ≠ 1) {m rest : Nat} (hm : 0 < m) (hrest : rest ≤ m)
    (hsum : m + rest + 1 ≤ n)
    (hwidth : ((n : Int) - 1) * incr < 2 * H ∧ -(((n : Int) - 1) * incr) < 2 * H) :
    ¬ (2 * H : Int) ∣ (rest : Int) - m * incr := by
  intro hdvd
  rcases Int.lt_or_gt_of_ne hincr with hneg | hpos
  · have hbound : ((m : Int) + rest) * -incr ≤ (n - 1) * -incr :=
      mul_le_mul_of_nonneg_right (by omega) (by omega)
    have hstep : (rest : Int) * 1 ≤ rest * -incr :=
      mul_le_mul_of_nonneg_left (by omega) (Int.natCast_nonneg _)
    have hback : (m : Int) * incr < 0 := Int.mul_neg_of_pos_of_neg (by omega) hneg
    have heq : (rest : Int) - m * incr = 0 := eq_of_dvd (by rwa [Int.sub_zero]) (by linarith) (by linarith)
    omega
  · have hbound : (m : Int) * incr ≤ (n - 1) * incr := mul_le_mul_of_nonneg_right (by omega) (by omega)
    have hstep : (m : Int) * 2 ≤ m * incr := mul_le_mul_of_nonneg_left (by omega) (Int.natCast_nonneg _)
    have heq : (rest : Int) - m * incr = 0 := eq_of_dvd (by rwa [Int.sub_zero]) (by linarith) (by linarith)
    omega

/-- With a remainder, and an increment that is not one, no thread ends on the last iteration: those with one
more end before it, and the start of the others is off. -/
theorem not_dvd_offset (hle : T ≤ n) (hdvd : ¬ T ∣ n) (hincr : incr ≠ 0) (hone : incr ≠ 1) (ht : t < T)
    (hwidth : ((n : Int) - 1) * incr < 2 * H ∧ -(((n : Int) - 1) * incr) < 2 * H) :
    ¬ (2 * H : Int) ∣ offset n T incr t + share n T t * incr - n * incr := by
  have hrem : 0 < n % T := Nat.pos_of_ne_zero fun h0 => hdvd (Nat.dvd_of_mod_eq_zero h0)
  have hremT : n % T < T := Nat.mod_lt n (by omega)
  have hq : 0 < n / T := Nat.div_pos hle (by omega)
  have hend := first_add_share_le ht (n := n)
  by_cases hlt : t < n % T
  · have hnext := first_add_share_le (t := t + 1) (T := T) (n := n) (by omega)
    have hshare : n / T ≤ share n T (t + 1) := by
      unfold share
      split <;> omega
    rw [first_succ] at hnext
    have hmore : 0 < share n T t := by
      rw [share_of_lt hlt]
      omega
    have hdist : offset n T incr t + share n T t * incr - n * incr =
        ((0 : Nat) : Int) - ((n - (first n T t + share n T t) : Nat) : Int) * incr := by
      rw [offset_eq (Or.inl hlt), Nat.cast_sub hend]
      push_cast
      ring
    rw [hdist]
    exact not_dvd_sub_mul hincr hone (by omega) (by omega) (by omega) hwidth
  · have hge := Nat.not_lt.mp hlt
    rw [first_of_le hge, share_of_le hge] at hend
    have hmul : (t + 1) * (n / T) = t * (n / T) + n / T := Nat.succ_mul _ _
    have hmany : t + 1 ≤ (t + 1) * (n / T) := Nat.le_mul_of_pos_right _ hq
    have hdist : offset n T incr t + share n T t * incr - n * incr =
        ((n % T : Nat) : Int) - ((n - (t + 1) * (n / T) : Nat) : Int) * incr := by
      rw [offset_of_le hge, share_of_le hge, Nat.cast_sub (by omega)]
      push_cast
      ring
    rw [hdist]
    exact not_dvd_sub_mul hincr hone (by omega) (by omega) (by omega) hwidth

namespace Follows

variable (h : Follows H base lower n T incr r) (hp : Partition lower n T incr r) (hincr : incr ≠ 0)

include h hp hincr

theorem dvd_or_one (hT : 0 < T) (hle : T ≤ n) : T ∣ n ∨ incr = 1 := by
  by_contra hnot
  obtain ⟨hdvd, hone⟩ := not_or.mp hnot
  obtain ⟨t, ⟨ht, hvisits⟩, -⟩ := hp.once (n - 1) (by omega)
  rw [Nat.cast_pred (by omega)] at hvisits
  have hflag := (hp.flag t ht).mpr ⟨by omega, hvisits⟩
  apply not_dvd_offset hle hdvd hincr hone ht (h.width (by omega))
  have hsum := dvd_add (h.plower_dvd t ht) (h.pupper_dvd t ht)
  rw [h.flag_pupper t ht hflag] at hsum
  have hdist : offset n T incr t + share n T t * incr - n * incr =
      -((r t).plower - (lower + offset n T incr t) +
        (lower + (n - 1) * incr - ((r t).plower + share n T t * incr - incr))) := by ring
  rw [hdist]
  exact (dvd_neg.mpr hsum)

/-- The last thread ends on the last iteration, and its flag compares the start with it. -/
theorem pos_or_eq (hT : 0 < T) (hle : T ≤ n) : 0 < incr ∨ n = T := by
  by_contra hnot
  obtain ⟨hneg, hne⟩ := not_or.mp hnot
  have hright := h.dvd_or_one hp hincr hT hle
  have hdvd : T ∣ n := by
    rcases hright with hdvd | rfl
    · exact hdvd
    · exact absurd Int.one_pos hneg
  have hrem := Nat.mod_eq_zero_of_dvd hdvd
  have hlast : T - 1 < T := by omega
  have hshare : share n T (T - 1) = n / T := share_of_le (by omega)
  have hq : 0 < n / T := Nat.div_pos hle hT
  have hend : first n T (T - 1) + share n T (T - 1) = n := by
    rw [← first_succ, Nat.sub_add_cancel hT, first_length hT]
  have hplower := h.plower_eq (Or.inr hright) hlast (by omega)
  have hpupper := h.pupper_eq (Or.inr hright) hlast (by omega)
  have hvisits : Visits incr (r (T - 1)).plower (r (T - 1)).pupper (lower + (n - 1) * incr) := by
    rw [hplower, hpupper]
    exact (visits_stretch hincr lower _ _).mpr ⟨n - 1, by omega, by omega, by rw [Nat.cast_pred (by omega)]⟩
  have hflag := (hp.flag (T - 1) hlast).mpr ⟨by omega, hvisits⟩
  obtain ⟨-, horder⟩ := (h.flag_iff (T - 1) hlast (first n T (T - 1)) (by omega) hplower).mp hflag
  rw [hplower] at horder
  have hback : 0 ≤ ((n : Int) - 1 - first n T (T - 1)) * incr := by linarith
  have htwo : 2 ≤ n / T := by
    by_contra hlt
    have hone : n / T = 1 := by omega
    have hmul := Nat.div_mul_cancel hdvd
    rw [hone, Nat.one_mul] at hmul
    exact hne hmul.symm
  have hstep : ((n : Int) - 1 - first n T (T - 1)) * incr < 0 :=
    Int.mul_neg_of_pos_of_neg (by omega) (by omega)
  omega

/-- An idle thread would run what a busy one runs. -/
theorem idle (hlt : n < T) (hn : n ≤ t) (ht : t < T) :
    Empty incr (r t).plower (r t).pupper ∧ (r t).plastiter = false := by
  have hnone : ∀ v, ¬ Visits incr (r t).plower (r t).pupper v := by
    intro v hv
    obtain ⟨k, hk, rfl⟩ := hp.only t ht v hv
    obtain ⟨hfirst, hshare⟩ := of_lt hlt hk
    have hkT : k < T := by omega
    have hplower := h.plower_eq (Or.inl hlt) hkT (by omega)
    have hpupper := h.pupper_eq (Or.inl hlt) hkT (by omega)
    have hk' : Visits incr (r k).plower (r k).pupper (lower + k * incr) := by
      rw [hplower, hpupper]
      exact (visits_stretch hincr lower _ _).mpr ⟨k, by omega, by omega, rfl⟩
    have heq := (hp.once k hk).unique ⟨ht, hv⟩ ⟨hkT, hk'⟩
    omega
  constructor
  · by_contra hempty
    exact hnone _ (visits_lower hempty)
  · rw [← Bool.not_eq_true, hp.flag t ht]
    rintro ⟨-, hv⟩
    exact hnone _ hv

end Follows

/-- **When bounds that follow the shares partition the loop.** -/
theorem Follows.partition_iff (h : Follows H base lower n T incr r) (hincr : incr ≠ 0) (hT : 0 < T) :
    Partition lower n T incr r ↔
      if n < T then ∀ t, n ≤ t → t < T → Empty incr (r t).plower (r t).pupper ∧ (r t).plastiter = false
      else (T ∣ n ∨ incr = 1) ∧ (0 < incr ∨ n = T) := by
  constructor
  · intro hp
    split
    · next hlt => exact fun t hn ht => h.idle hp hincr hlt hn ht
    · next hge =>
      have hle := Nat.not_lt.mp hge
      exact ⟨h.dvd_or_one hp hincr hT hle, h.pos_or_eq hp hincr hT hle⟩
  · intro hcond
    have hright : n < T ∨ T ∣ n ∨ incr = 1 := by
      split at hcond
      · next hlt => exact Or.inl hlt
      · exact Or.inr hcond.1
    have hsign : ∀ t, t < T → share n T t ≠ 0 → 0 < incr ∨ share n T t = 1 := by
      intro t ht hshare
      split at hcond
      · next hlt =>
        have htn := lt_mod_of_share_ne_zero hlt hshare
        rw [Nat.mod_eq_of_lt hlt] at htn
        exact Or.inr (of_lt hlt htn).2
      · rcases hcond.2 with hpos | rfl
        · exact Or.inl hpos
        · right
          rw [share_of_le (by rw [Nat.mod_self]; omega), Nat.div_self hT]
    apply partition_of_bounds hincr lower hT
    · intro t ht hshare
      exact ⟨h.plower_eq hright ht hshare, h.pupper_eq hright ht hshare,
        h.plastiter_iff hincr hright (hsign t ht hshare) ht hshare⟩
    · intro t ht hshare
      obtain ⟨hlt, hn⟩ := (share_eq_zero_iff hT).mp hshare
      rw [if_pos hlt] at hcond
      exact hcond t hn ht

end Omp

end CachePool
