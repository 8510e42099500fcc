import Mathlib.Data.List.Basic
import Mathlib.Logic.Function.Basic

/-!
# Rings of slots

Values are put into the slots of a ring one after the other, the value of number `k` into slot `k % C`, and
taken out in that order.  `xs` is everything put in so far and `back` the number taken out.

* `RingHolds` — what has not been taken out is still in its slot.
* `write`, `push`, `pop` — a write to the next slot of a ring that is not full; the value there counts as put
  in; values are taken out.
-/

set_option autoImplicit false

universe u

variable {α : Type u} {C : Nat}

/-- Two numbers less than `C` apart have different slots. -/
theorem mod_ne_mod {k m : Nat} (hlt : k < m) (hnear : m < k + C) : k % C ≠ m % C := by
  intro heq
  have hzero : (m - k) % C = 0 := Nat.sub_mod_eq_zero_of_mod_eq heq.symm
  rw [Nat.mod_eq_of_lt (by omega)] at hzero
  omega

/-- What has not been taken out is in its slot. -/
def RingHolds (C : Nat) (ring : Nat → α) (xs : List α) (back : Nat) : Prop :=
  ∀ k x, back ≤ k → xs[k]? = some x → ring (k % C) = x

namespace RingHolds

variable {ring : Nat → α} {xs : List α} {back : Nat}

theorem nil (ring : Nat → α) (back : Nat) : RingHolds C ring [] back := by
  intro k x _ hx
  simp at hx

/-- In a ring that is not full the next slot is free. -/
theorem write {ring' : Nat → α} (h : RingHolds C ring xs back) (hroom : xs.length < back + C)
    (hsame : ∀ j, j ≠ xs.length % C → ring' j = ring j) : RingHolds C ring' xs back := by
  intro k x hk hx
  obtain ⟨hlt, _⟩ := List.getElem?_eq_some_iff.mp hx
  rw [hsame _ (mod_ne_mod hlt (by omega))]
  exact h k x hk hx

theorem push (h : RingHolds C ring xs back) {v : α} (hv : ring (xs.length % C) = v) :
    RingHolds C ring (xs ++ [v]) back := by
  intro k x hk hx
  by_cases hlt : k < xs.length
  · rw [List.getElem?_append_left hlt] at hx
    exact h k x hk hx
  · have hlen := (List.getElem?_eq_some_iff.mp hx).1
    rw [List.length_append, List.length_singleton] at hlen
    have hlast : k = xs.length := by omega
    subst hlast
    rw [List.getElem?_concat_length] at hx
    cases hx
    exact hv

theorem pop (h : RingHolds C ring xs back) {back' : Nat} (hle : back ≤ back') : RingHolds C ring xs back' :=
  fun k x hk hx => h k x (Nat.le_trans hle hk) hx

end RingHolds

/-- The next element of a list continues its beginning. -/
theorem concat_prefix {xs ys : List α} {y : α} (h : xs <+: ys) (hy : ys[xs.length]? = some y) :
    xs ++ [y] <+: ys := by
  obtain ⟨zs, rfl⟩ := h
  rw [List.getElem?_append_right (Nat.le_refl _), Nat.sub_self] at hy
  cases zs with
  | nil => simp at hy
  | cons z zs =>
    cases hy
    exact ⟨zs, by simp⟩
