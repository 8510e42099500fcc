import Mathlib.Data.List.Range

/-!
# Copying a stretch of one memory into another

* `blit` — `n` cells of one memory, from a place on, written into another.
* `blit_append`, `blit_through` — two neighbouring stretches are one; a copy through a buffer is a copy.
* `copy`, `copy_append` — within one memory, when the second source is clear of the first target.
* `foldl_blit` — equal stretches one after the other.
* `foldl_observe` — what a fold does to one component of a state, where an invariant fixes the others.
-/

set_option autoImplicit false

namespace Blit

variable {β : Type*}

/-- `g` with its `n` cells from `dst` on taken from those of `f` from `src` on. -/
def blit (dst src n : Nat) (f g : Nat → β) : Nat → β :=
  fun y => if dst ≤ y ∧ y < dst + n then f (src + (y - dst)) else g y

/-- `memcpy`. -/
def copy (dst src n : Nat) (m : Nat → β) : Nat → β := blit dst src n m m

variable {dst src tmp n a b y : Nat} {f f' g m : Nat → β}

theorem blit_of_mem (h : dst ≤ y) (h' : y < dst + n) : blit dst src n f g y = f (src + (y - dst)) :=
  if_pos ⟨h, h'⟩

theorem blit_of_not_mem (h : y < dst ∨ dst + n ≤ y) : blit dst src n f g y = g y := by
  apply if_neg
  omega

theorem blit_add {i : Nat} (h : i < n) : blit dst src n f g (dst + i) = f (src + i) := by
  rw [blit_of_mem (by omega) (by omega), Nat.add_sub_cancel_left]

@[simp] theorem blit_zero : blit dst src 0 f g = g := by
  funext y
  apply blit_of_not_mem
  omega

/-- Only the cells that are copied matter. -/
theorem blit_congr {src' : Nat} (h : ∀ i, i < n → f (src + i) = f' (src' + i)) :
    blit dst src n f g = blit dst src' n f' g := by
  funext y
  by_cases hy : dst ≤ y ∧ y < dst + n
  · rw [blit_of_mem hy.1 hy.2, blit_of_mem hy.1 hy.2]
    exact h (y - dst) (by omega)
  · rw [blit_of_not_mem (by omega), blit_of_not_mem (by omega)]

theorem blit_append : blit (dst + a) (src + a) b f (blit dst src a f g) = blit dst src (a + b) f g := by
  funext y
  by_cases hb : dst + a ≤ y ∧ y < dst + a + b
  · rw [blit_of_mem hb.1 hb.2, blit_of_mem (by omega) (by omega)]
    congr 1
    omega
  · rw [blit_of_not_mem (by omega)]
    by_cases ha : dst ≤ y ∧ y < dst + a
    · rw [blit_of_mem ha.1 ha.2, blit_of_mem (by omega) (by omega)]
    · rw [blit_of_not_mem (by omega), blit_of_not_mem (by omega)]

theorem blit_through {r : Nat → β} : blit dst tmp n (blit tmp src n f r) g = blit dst src n f g := by
  funext y
  by_cases hy : dst ≤ y ∧ y < dst + n
  · rw [blit_of_mem hy.1 hy.2, blit_of_mem hy.1 hy.2, blit_add (by omega)]
  · rw [blit_of_not_mem (by omega), blit_of_not_mem (by omega)]

theorem copy_append (h : dst + a ≤ src + a ∨ src + a + b ≤ dst) :
    copy (dst + a) (src + a) b (copy dst src a m) = copy dst src (a + b) m := by
  have hsrc : ∀ i, i < b → copy dst src a m (src + a + i) = m (src + a + i) := by
    intro i hi
    apply blit_of_not_mem
    omega
  calc copy (dst + a) (src + a) b (copy dst src a m)
      = blit (dst + a) (src + a) b m (copy dst src a m) := blit_congr hsrc
    _ = copy dst src (a + b) m := blit_append

theorem foldl_blit (dst src a B k : Nat) (f g : Nat → β) :
    (List.range' a k).foldl (fun g j => blit (dst + B * j) (src + B * j) B f g) g =
      blit (dst + B * a) (src + B * a) (B * k) f g := by
  induction k with
  | zero => simp
  | succ k ih =>
    have hnext : B * (a + k) = B * a + B * k := Nat.mul_add B a k
    rw [List.range'_concat, List.foldl_append, ih, Nat.mul_succ]
    simp only [List.foldl_cons, List.foldl_nil, Nat.one_mul, hnext, ← Nat.add_assoc]
    exact blit_append

theorem foldl_observe {σ τ : Type*} {step : σ → Nat → σ} {F : τ → Nat → τ} {p : σ → τ} (I : σ → Prop)
    (h : ∀ s j, I s → I (step s j) ∧ p (step s j) = F (p s) j) (js : List Nat) (s : σ) (hs : I s) :
    I (js.foldl step s) ∧ p (js.foldl step s) = js.foldl F (p s) := by
  induction js generalizing s with
  | nil => exact ⟨hs, rfl⟩
  | cons j js ih =>
    obtain ⟨hI, hp⟩ := h s j hs
    simp only [List.foldl_cons, ← hp]
    exact ih (step s j) hI

end Blit
