import Mathlib.Algebra.Order.Ring.Int
import Mathlib.Algebra.Ring.Divisibility.Basic
import Mathlib.Data.Int.ModEq
import Mathlib.Tactic.Ring

/-!
# Chunks dealt out in turn

Items in chunks of `c` go to `T` workers in turn: chunk `t + T * k` is the `k`-th of worker `t`.

* `inTurn_iff` — which worker has an item, and in which of its chunks.
* `existsUnique_turn` — exactly one does, in exactly one.
* `turn_within` — the first chunks of all workers are a round of `T` chunks; `first_turn_of_le` — only the
  worker itself begins there.
* `turn_dvd_iff`, `no_turn_dvd_iff` — a worker found by a remainder: it is the owner of a chunk, or nobody.
-/

set_option autoImplicit false

namespace Turns

variable {c T t k i : ℕ}

/-- The item `i` is in the `k`-th chunk of worker `t`. -/
def InTurn (c T t k i : ℕ) : Prop := (t + T * k) * c ≤ i ∧ i < (t + T * k) * c + c

theorem inTurn_iff (hc : 0 < c) (ht : t < T) : InTurn c T t k i ↔ t = i / c % T ∧ k = i / c / T := by
  have hdiv : InTurn c T t k i ↔ i / c = t + T * k := by
    unfold InTurn
    rw [Nat.div_eq_iff hc]
    omega
  rw [hdiv]
  constructor
  · intro h
    rw [h, Nat.add_mul_mod_self_left, Nat.mod_eq_of_lt ht, Nat.add_mul_div_left _ _ (by omega),
      Nat.div_eq_of_lt ht, Nat.zero_add]
    exact ⟨rfl, rfl⟩
  · rintro ⟨rfl, rfl⟩
    exact (Nat.mod_add_div _ _).symm

/-- **Each item once.** -/
theorem existsUnique_turn (hc : 0 < c) (hT : 0 < T) (i : ℕ) :
    ∃! p : ℕ × ℕ, p.1 < T ∧ InTurn c T p.1 p.2 i := by
  have ht : i / c % T < T := Nat.mod_lt _ hT
  refine ⟨(i / c % T, i / c / T), ⟨ht, (inTurn_iff hc ht).mpr ⟨rfl, rfl⟩⟩, ?_⟩
  rintro ⟨t, k⟩ ⟨htT, hin⟩
  obtain ⟨rfl, rfl⟩ := (inTurn_iff hc htT).mp hin
  rfl

variable {s X : ℤ} {q : ℕ}

/-- The first chunk of a worker is within the first round. -/
theorem turn_within (hs : 0 < s) (ht : t < T) : 0 ≤ s * (t : ℕ) ∧ s * (t : ℕ) + s ≤ s * (T : ℕ) := by
  have hmul : s * ((t : ℤ) + 1) ≤ s * T := Int.mul_le_mul_of_nonneg_left (by omega) hs.le
  rw [mul_add, mul_one] at hmul
  exact ⟨Int.mul_nonneg hs.le (Int.natCast_nonneg t), hmul⟩

/-- A chunk that begins within a first chunk is that one. -/
theorem first_turn_of_le {t' : ℕ} (hs : 0 < s) (ht : t < T) (hle : s * (t' + T * k : ℕ) ≤ s * (t : ℕ))
    (hlt : s * (t : ℕ) < s * (t' + T * k : ℕ) + s) : t' = t ∧ k = 0 := by
  have hbefore : t' + T * k ≤ t := by exact_mod_cast le_of_mul_le_mul_left hle hs
  have hbehind : t < t' + T * k + 1 := by
    have hmul : s * (t : ℕ) < s * (t' + T * k + 1 : ℕ) := by
      rw [Nat.cast_succ, mul_add, mul_one]
      exact hlt
    exact_mod_cast lt_of_mul_lt_mul_left hmul hs.le
  have hfirst : k = 0 := by
    by_contra hk
    have hround : T ≤ T * k := Nat.le_mul_of_pos_right T (by omega)
    omega
  subst hfirst
  exact ⟨by omega, rfl⟩

/-- The owner of chunk `q`, by a remainder. -/
theorem dvd_turn_iff (hs : 0 < s) (ht : t < T) : s * T ∣ s * q - s * t ↔ t = q % T := by
  rw [← mul_sub, mul_dvd_mul_iff_left hs.ne', ← Nat.modEq_iff_dvd, Nat.ModEq, Nat.mod_eq_of_lt ht]

/-- Only the owner of chunk `q` is found, exactly if `X` is the distance to one of its chunks. -/
theorem turn_dvd_iff (hs : 0 < s) (hT : 0 < T) :
    (∀ t, t < T → (s * T ∣ X - s * t ↔ t = q % T)) ↔ s * T ∣ X - s * q := by
  constructor
  · intro h
    have ht : q % T < T := Nat.mod_lt _ hT
    have howner := dvd_sub ((h _ ht).mpr rfl) ((dvd_turn_iff hs ht).mpr rfl)
    rwa [sub_sub_sub_cancel_right] at howner
  · intro h t ht
    rw [← dvd_turn_iff hs ht]
    have hsplit : X - s * t = X - s * q + (s * q - s * t) := by ring
    rw [hsplit]
    exact dvd_add_right h

/-- Nobody is found, exactly if `X` is not a distance of chunks at all. -/
theorem no_turn_dvd_iff (hs : 0 < s) (hT : 0 < T) : (∀ t, t < T → ¬ s * T ∣ X - s * (t : ℕ)) ↔ ¬ s ∣ X := by
  constructor
  · rintro h ⟨x, rfl⟩
    have hpos : (0 : ℤ) < T := by exact_mod_cast hT
    have hnonneg : 0 ≤ x % T := Int.emod_nonneg x hpos.ne'
    have hlt : x % T < T := Int.emod_lt_of_pos x hpos
    apply h (x % T).toNat (by omega)
    rw [Int.toNat_of_nonneg hnonneg, ← mul_sub, mul_dvd_mul_iff_left hs.ne']
    exact Int.dvd_self_sub_emod
  · intro h t _ hdvd
    have hspan : s ∣ X - s * t := dvd_trans (Dvd.intro _ rfl) hdvd
    exact h ((dvd_sub_left (Dvd.intro _ rfl)).mp hspan)

end Turns
