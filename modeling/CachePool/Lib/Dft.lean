import Mathlib.Algebra.BigOperators.Ring.Finset
import Mathlib.Tactic.Ring

/-!
# Decimation in frequency

A transform of `2 ^ T` points in `T` stages.  Stage `s` splits each of `2 ^ s` sequences into one for its even
and one for its odd frequencies: the sums of its two halves, and their differences with a twiddle factor.
What the sums and differences are is left open.

* `Stages`, `values` — the operations, and the sequences before each stage.
* `val_values` — in a commutative ring they are partial sums of the transform.
* `val_values_last` — after all stages there is one value for each frequency: the discrete Fourier transform.
-/

set_option autoImplicit false

namespace Dft

universe u v w

/-- The sum of two values, and their difference with a twiddle factor. -/
structure Stages (X : Type u) (W : Type v) where
  sum : X → X → X
  twist : W → X → X → X

variable {X : Type u} {W : Type v} (B : Stages X W) (T : Nat) (x : Nat → X) (w : Nat → Nat → Nat → W)

/-- Value `o` before stage `s` of the sequence for the frequencies that are `k` modulo `2 ^ s`; `w s k o` is
the twiddle factor of its difference. -/
def values : Nat → Nat → Nat → X
  | 0, _, o => x o
  | s + 1, k, o =>
    let half := 2 ^ (T - (s + 1))
    if k < 2 ^ s then B.sum (values s k o) (values s k (o + half))
    else B.twist (w s (k - 2 ^ s) o) (values s (k - 2 ^ s) o) (values s (k - 2 ^ s) (o + half))

theorem values_sum {s k : Nat} (o : Nat) (hk : k < 2 ^ s) : values B T x w (s + 1) k o =
    B.sum (values B T x w s k o) (values B T x w s k (o + 2 ^ (T - (s + 1)))) := by
  rw [values]
  exact if_pos hk

theorem values_twist (s k o : Nat) : values B T x w (s + 1) (k + 2 ^ s) o =
    B.twist (w s k o) (values B T x w s k o) (values B T x w s k (o + 2 ^ (T - (s + 1)))) := by
  rw [values]
  simp only [Nat.add_sub_cancel]
  exact if_neg (Nat.not_lt.mpr (Nat.le_add_left _ _))

/-! ## In a ring -/

/-- A sum in pairs. -/
theorem sum_range_two_mul {C : Type w} [AddCommMonoid C] (f : Nat → C) (n : Nat) :
    ∑ i ∈ Finset.range (2 * n), f i = ∑ i ∈ Finset.range n, (f (2 * i) + f (2 * i + 1)) := by
  induction n with
  | zero => rfl
  | succ n ih =>
    rw [Nat.mul_succ, Finset.sum_range_succ, Finset.sum_range_succ, ih, Finset.sum_range_succ, add_assoc]

variable {B T x w} {C : Type w} [CommRing C] {val : X → C} {tw : W → C} {ω : C}

/-- **The sequences are partial sums of the transform**, if `ω` has the order `2 ^ T` and the twiddle factors
are its powers. -/
theorem val_values (hsum : ∀ a b, val (B.sum a b) = val a + val b)
    (htwist : ∀ c a b, val (B.twist c a b) = (val a - val b) * tw c)
    (hw : ∀ s k o, s < T → k < 2 ^ s → o < 2 ^ (T - (s + 1)) → tw (w s k o) = ω ^ (2 ^ s * o))
    (hω : ω ^ 2 ^ (T - 1) = -1) {s k o : Nat} (hs : s ≤ T) (hk : k < 2 ^ s) (ho : o < 2 ^ (T - s)) :
    val (values B T x w s k o) =
      ∑ i ∈ Finset.range (2 ^ s), val (x (o + i * 2 ^ (T - s))) * ω ^ (k * (o + i * 2 ^ (T - s))) := by
  induction s generalizing k o with
  | zero =>
    obtain rfl : k = 0 := by omega
    simp [values]
  | succ s ih =>
    -- the two halves of a sequence before stage `s`
    have hhalf : 2 ^ (T - s) = 2 * 2 ^ (T - (s + 1)) := by
      rw [← Nat.pow_succ', Nat.succ_eq_add_one, show T - (s + 1) + 1 = T - s by omega]
    have hfirst := fun k (hk : k < 2 ^ s) => ih (k := k) (o := o) (by omega) hk (by omega)
    have hsecond := fun k (hk : k < 2 ^ s) =>
      ih (k := k) (o := o + 2 ^ (T - (s + 1))) (by omega) hk (by omega)
    have heven : ∀ i, o + i * 2 ^ (T - s) = o + 2 * i * 2 ^ (T - (s + 1)) := fun i => by
      rw [hhalf]
      ring
    have hodd : ∀ i, o + 2 ^ (T - (s + 1)) + i * 2 ^ (T - s) =
        o + (2 * i + 1) * 2 ^ (T - (s + 1)) := fun i => by
      rw [hhalf]
      ring
    simp only [heven] at hfirst
    simp only [hodd] at hsecond
    rw [Nat.pow_succ', sum_range_two_mul]
    by_cases hlow : k < 2 ^ s
    · rw [values_sum B T x w o hlow, hsum, hfirst k hlow, hsecond k hlow, Finset.sum_add_distrib]
    · obtain ⟨k, rfl⟩ : ∃ k', k = k' + 2 ^ s := ⟨k - 2 ^ s, by omega⟩
      have hk' : k < 2 ^ s := by
        rw [Nat.pow_succ] at hk
        omega
      -- the upper half of the circle
      have hpow : 2 ^ s * 2 ^ (T - (s + 1)) = 2 ^ (T - 1) := by
        rw [← Nat.pow_add, show s + (T - (s + 1)) = T - 1 by omega]
      have hsign : ∀ i, ω ^ (2 ^ s * (o + i * 2 ^ (T - (s + 1)))) = ω ^ (2 ^ s * o) * (-1) ^ i := fun i => by
        rw [show 2 ^ s * (o + i * 2 ^ (T - (s + 1))) = 2 ^ s * o + 2 ^ s * 2 ^ (T - (s + 1)) * i by ring,
          hpow, pow_add, pow_mul ω (2 ^ (T - 1)), hω]
      rw [values_twist, htwist, hw s k o (by omega) hk' ho, hfirst k hk', hsecond k hk',
        ← Finset.sum_sub_distrib, Finset.sum_mul]
      refine Finset.sum_congr rfl fun i _ => ?_
      rw [Nat.add_mul k, Nat.add_mul k, pow_add, pow_add, hsign, hsign, pow_mul, pow_succ, pow_mul]
      norm_num
      ring

/-- **The discrete Fourier transform.** -/
theorem val_values_last (hsum : ∀ a b, val (B.sum a b) = val a + val b)
    (htwist : ∀ c a b, val (B.twist c a b) = (val a - val b) * tw c)
    (hw : ∀ s k o, s < T → k < 2 ^ s → o < 2 ^ (T - (s + 1)) → tw (w s k o) = ω ^ (2 ^ s * o))
    (hω : ω ^ 2 ^ (T - 1) = -1) {k : Nat} (hk : k < 2 ^ T) :
    val (values B T x w T k 0) = ∑ i ∈ Finset.range (2 ^ T), val (x i) * ω ^ (k * i) := by
  rw [val_values hsum htwist hw hω (Nat.le_refl T) hk (Nat.two_pow_pos _)]
  simp

end Dft
