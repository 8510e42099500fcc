import Mathlib.Data.Int.ModEq
import Mathlib.Algebra.Order.Ring.Int
import Mathlib.Tactic.Ring

/-!
# Integers of a fixed width in C

A signed type has the values from `-H` to `H - 1`, the unsigned one those from 0 to `2 * H - 1`.

* `signed` — the result of a signed operation, which is undefined on overflow.
* `toSigned`, `toUnsigned` — conversions, and unsigned arithmetic.
* `eq_of_dvd` — two numbers that are less than `2 * H` apart and agree modulo `2 * H` are equal.
-/

set_option autoImplicit false

namespace CInt

def Fits (H : ℕ) (x : ℤ) : Prop := -(H : ℤ) ≤ x ∧ x < H

instance (H : ℕ) (x : ℤ) : Decidable (Fits H x) := inferInstanceAs (Decidable (_ ∧ _))

/-- Signed overflow has no result. -/
def signed (H : ℕ) (x : ℤ) : Option ℤ := if Fits H x then some x else none

def toSigned (H : ℕ) (x : ℤ) : ℤ := x.bmod (2 * H)

def toUnsigned (H : ℕ) (x : ℤ) : ℤ := x % (2 * H : ℕ)

variable {H : ℕ} {x y : ℤ}

theorem signed_of_fits (h : Fits H x) : signed H x = some x := if_pos h

theorem signed_eq_some_iff : signed H x = some y ↔ Fits H x ∧ x = y := by
  unfold signed
  split <;> simp_all

/-- A sequence of operations has a result if each of them has one. -/
theorem bind_signed_eq_some {α : Type*} {f : ℤ → Option α} {b : α} :
    (signed H x).bind f = some b ↔ Fits H x ∧ f x = some b := by
  unfold signed
  split <;> simp_all

theorem toSigned_of_fits (h : Fits H x) : toSigned H x = x := by
  obtain ⟨hlo, hhi⟩ := h
  unfold toSigned
  rw [Int.bmod_eq_of_le] <;> omega

theorem fits_toSigned (hH : 0 < H) (x : ℤ) : Fits H (toSigned H x) := by
  have hpos : 0 < 2 * H := by omega
  have hlo := Int.le_bmod (x := x) hpos
  have hhi := Int.bmod_lt (x := x) hpos
  unfold Fits toSigned
  omega

theorem dvd_toSigned_sub (H : ℕ) (x : ℤ) : (2 * H : ℤ) ∣ toSigned H x - x := by
  have h : ((2 * H : ℕ) : ℤ) ∣ toSigned H x - x := by
    unfold toSigned
    apply Int.dvd_of_emod_eq_zero
    rw [Int.sub_emod, Int.bmod_emod, Int.sub_self, Int.zero_emod]
  simpa using h

theorem toUnsigned_of_range (h0 : 0 ≤ x) (h : x < 2 * H) : toUnsigned H x = x := by
  unfold toUnsigned
  apply Int.emod_eq_of_lt h0
  simpa using h

theorem toUnsigned_le (h0 : 0 ≤ x) : toUnsigned H x ≤ x := by
  have hdiv := Int.mul_ediv_add_emod x (2 * H : ℕ)
  have hquot : 0 ≤ ((2 * H : ℕ) : ℤ) * (x / (2 * H : ℕ)) :=
    Int.mul_nonneg (Int.natCast_nonneg _) (Int.ediv_nonneg h0 (Int.natCast_nonneg _))
  unfold toUnsigned
  omega

theorem toUnsigned_range (hH : 0 < H) (x : ℤ) : 0 ≤ toUnsigned H x ∧ toUnsigned H x < 2 * H := by
  have hpos : (0 : ℤ) < (2 * H : ℕ) := by omega
  have hlo := Int.emod_nonneg x hpos.ne'
  have hhi := Int.emod_lt_of_pos x hpos
  unfold toUnsigned
  omega

theorem dvd_toUnsigned_sub (H : ℕ) (x : ℤ) : (2 * H : ℤ) ∣ toUnsigned H x - x := by
  have h : ((2 * H : ℕ) : ℤ) ∣ toUnsigned H x - x := by
    unfold toUnsigned
    apply Int.dvd_of_emod_eq_zero
    rw [Int.sub_emod, Int.emod_emod_of_dvd x dvd_rfl, Int.sub_self, Int.zero_emod]
  simpa using h

theorem toUnsigned_congr (h : (2 * H : ℤ) ∣ x - y) : toUnsigned H x = toUnsigned H y := by
  have h' : ((2 * H : ℕ) : ℤ) ∣ x - y := by simpa using h
  unfold toUnsigned
  exact Int.emod_eq_emod_iff_emod_sub_eq_zero.mpr (Int.emod_eq_zero_of_dvd h')

theorem toSigned_congr (h : (2 * H : ℤ) ∣ x - y) : toSigned H x = toSigned H y := by
  have h' : x % (2 * H : ℕ) = y % (2 * H : ℕ) := toUnsigned_congr h
  unfold toSigned
  rw [← Int.emod_bmod, h', Int.emod_bmod]

theorem toSigned_of_ge (h : (H : ℤ) ≤ x) (h' : x < 2 * H) : toSigned H x = x - 2 * H := by
  have hfits : Fits H (x - 2 * H) := by
    unfold Fits
    omega
  have hcongr : toSigned H x = toSigned H (x - 2 * H) := toSigned_congr ⟨1, by ring⟩
  rw [hcongr, toSigned_of_fits hfits]

theorem toUnsigned_of_nonneg (hfits : Fits H x) (h0 : 0 ≤ x) : toUnsigned H x = x := by
  unfold Fits at hfits
  exact toUnsigned_of_range h0 (by omega)

/-- One round above the type. -/
theorem toUnsigned_of_ge (h : 2 * H ≤ x) (h' : x < 4 * H) : toUnsigned H x = x - 2 * H := by
  have hcongr : toUnsigned H x = toUnsigned H (x - 2 * H) := toUnsigned_congr ⟨1, by ring⟩
  rw [hcongr]
  exact toUnsigned_of_range (by omega) (by omega)

/-- One round below it. -/
theorem toUnsigned_of_lt (h : -(2 * H : ℤ) ≤ x) (h' : x < 0) : toUnsigned H x = x + 2 * H := by
  have hcongr : toUnsigned H x = toUnsigned H (x + 2 * H) := toUnsigned_congr ⟨-1, by ring⟩
  rw [hcongr]
  exact toUnsigned_of_range (by omega) (by omega)

theorem toUnsigned_of_neg (hfits : Fits H x) (h0 : x < 0) : toUnsigned H x = x + 2 * H := by
  unfold Fits at hfits
  exact toUnsigned_of_lt (by omega) h0

theorem toSigned_toUnsigned (hfits : Fits H x) : toSigned H (toUnsigned H x) = x := by
  rw [toSigned_congr (dvd_toUnsigned_sub H x), toSigned_of_fits hfits]

/-- Steps of one size stay between no step and the last one. -/
theorem steps_between (incr : ℤ) {k m : ℕ} (hk : k ≤ m) :
    (0 ≤ (k : ℤ) * incr ∧ (k : ℤ) * incr ≤ m * incr) ∨ ((m : ℤ) * incr ≤ k * incr ∧ (k : ℤ) * incr ≤ 0) := by
  rcases Int.le_total 0 incr with hpos | hneg
  · exact Or.inl ⟨Int.mul_nonneg (Int.natCast_nonneg k) hpos, Int.mul_le_mul_of_nonneg_right (by omega) hpos⟩
  · exact Or.inr ⟨Int.mul_le_mul_of_nonpos_right (by omega) hneg,
      Int.mul_nonpos_of_nonneg_of_nonpos (Int.natCast_nonneg k) hneg⟩

/-- The values between two that fit, in steps of one size. -/
theorem fits_of_le {a incr : ℤ} {k m : ℕ} (ha : Fits H a) (hm : Fits H (a + m * incr)) (hk : k ≤ m) :
    Fits H (a + k * incr) := by
  have hbetween := steps_between incr hk
  unfold Fits at *
  omega

theorem eq_of_dvd (h : (2 * H : ℤ) ∣ x - y) (hlt : x - y < 2 * H) (hgt : y - x < 2 * H) : x = y := by
  have habs : |x - y| < 2 * H := by
    rw [abs_lt]
    omega
  have hzero := Int.eq_zero_of_abs_lt_dvd h habs
  omega

end CInt
