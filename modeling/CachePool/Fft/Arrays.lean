import CachePool.Fft.Phase2

/-!
# Arrays of complex numbers

The imaginary parts of an array lie behind its real parts.  A loop over strips writes the outputs of its
butterflies to some places of such an array.

* `Holds`, `region`, `cells` — the values at some places, their words, and the words with the values.
* `rows_u`, `rows_l` — what is read from an array; `outputs_cells` — what is written to one.
-/

set_option autoImplicit false

namespace CachePool

namespace Fft

open Threads

universe u v

variable {F : Type u}

/-- The array at `p`, with imaginary parts `n` words behind the real ones, has `f` at the places of `Q`. -/
def Holds (m : Nat → F) (p n : Nat) (Q : Set Nat) (f : Nat → F × F) : Prop :=
  ∀ q ∈ Q, (m (p + q), m (p + q + n)) = f q

/-- The words of the places of `Q`. -/
def region (p n : Nat) (Q : Set Nat) : Set Nat := {a | ∃ q ∈ Q, a = p + q ∨ a = p + q + n}

/-- These words with `f`. -/
def cells (p n : Nat) (Q : Set Nat) (f : Nat → F × F) : Set (Nat × F) :=
  {e | ∃ q ∈ Q, e = (p + q, (f q).1) ∨ e = (p + q + n, (f q).2)}

variable {m m' : Nat → F} {p n : Nat} {Q Q' : Set Nat} {f : Nat → F × F}

theorem mem_region {q : Nat} (hq : q ∈ Q) : p + q ∈ region p n Q ∧ p + q + n ∈ region p n Q :=
  ⟨⟨q, hq, .inl rfl⟩, ⟨q, hq, .inr rfl⟩⟩

theorem region_lt (hQ : ∀ q ∈ Q, q < n) {a : Nat} (ha : a ∈ region p n Q) : p ≤ a ∧ a < p + 2 * n := by
  obtain ⟨q, hq, rfl | rfl⟩ := ha
  · exact ⟨by omega, by have := hQ q hq; omega⟩
  · exact ⟨by omega, by have := hQ q hq; omega⟩

/-- A word belongs to one place. -/
theorem region_meet (hQ : ∀ q ∈ Q, q < n) (hQ' : ∀ q ∈ Q', q < n) {a : Nat} (h : a ∈ region p n Q)
    (h' : a ∈ region p n Q') : ∃ q, q ∈ Q ∧ q ∈ Q' := by
  obtain ⟨q, hq, ha⟩ := h
  obtain ⟨q', hq', ha'⟩ := h'
  have hlt := hQ q hq
  have hlt' := hQ' q' hq'
  obtain rfl : q = q' := by omega
  exact ⟨q, hq, hq'⟩

theorem region_of_cells {a : Nat} {v : F} (h : (a, v) ∈ cells p n Q f) : a ∈ region p n Q := by
  obtain ⟨q, hq, heq | heq⟩ := h
  · exact ⟨q, hq, .inl (Prod.mk.inj heq).1⟩
  · exact ⟨q, hq, .inr (Prod.mk.inj heq).1⟩

/-- There is one value for a word. -/
theorem cells_agree (hQ : ∀ q ∈ Q, q < n) (hQ' : ∀ q ∈ Q', q < n) {a : Nat} {v v' : F}
    (h : (a, v) ∈ cells p n Q f) (h' : (a, v') ∈ cells p n Q' f) : v = v' := by
  obtain ⟨q, hq, heq⟩ := h
  obtain ⟨q', hq', heq'⟩ := h'
  have hlt := hQ q hq
  have hlt' := hQ' q' hq'
  simp only [Prod.mk.injEq] at heq heq'
  obtain rfl : q = q' := by omega
  rcases heq with ⟨ha, rfl⟩ | ⟨ha, rfl⟩ <;> rcases heq' with ⟨ha', rfl⟩ | ⟨ha', rfl⟩
  · rfl
  · omega
  · omega
  · rfl

/-- What threads have written. -/
theorem holds_of_written {ι : Type v} {W : ι → Set (Nat × F)} (h : Written m W m')
    (hW : ∀ q ∈ Q, ∃ i, (p + q, (f q).1) ∈ W i ∧ (p + q + n, (f q).2) ∈ W i) : Holds m' p n Q f := by
  intro q hq
  obtain ⟨i, hre, him⟩ := hW q hq
  exact Prod.ext (h.written i _ _ hre) (h.written i _ _ him)

/-! ## Rows of an array -/

variable {b d i : Nat}

theorem rows_u (h : Holds m p n Q f) (hi : b + i ∈ Q) : (rows (p + b) d n).u m i = f (b + i) := by
  have hre : p + b + i = p + (b + i) := by omega
  have him : p + b + n + i = p + (b + i) + n := by omega
  rw [← h _ hi, Rows.u, rows, hre, him]

theorem rows_l (h : Holds m p n Q f) (hi : b + i + d ∈ Q) : (rows (p + b) d n).l m i = f (b + i + d) := by
  have hre : p + b + d + i = p + (b + i + d) := by omega
  have him : p + b + d + n + i = p + (b + i + d) + n := by omega
  rw [← h _ hi, Rows.l, rows, hre, him]

/-- The words of the two wings. -/
theorem rows_mem (hu : b + i ∈ Q) (hl : b + i + d ∈ Q) :
    (rows (p + b) d n).reU + i ∈ region p n Q ∧ (rows (p + b) d n).imU + i ∈ region p n Q ∧
      (rows (p + b) d n).reL + i ∈ region p n Q ∧ (rows (p + b) d n).imL + i ∈ region p n Q := by
  refine ⟨⟨_, hu, .inl ?_⟩, ⟨_, hu, .inr ?_⟩, ⟨_, hl, .inl ?_⟩, ⟨_, hl, .inr ?_⟩⟩ <;> simp only [rows] <;>
    omega

/-- The outputs of a loop over strips. -/
theorem outputs_cells {k : Nat} {a : Nat → Nat} (a' : Nat → Nat) {u l : Nat → F × F}
    (h : ∀ j < k, a j = a' j ∧ u j = f (b + a' j) ∧ l j = f (b + a' j + d))
    (hQ : ∀ q, q ∈ Q ↔ ∃ j < k, q = b + a' j ∨ q = b + a' j + d) :
    {e | ∃ j < k, e ∈ outputs (rows (p + b) d n) (a j) (u j) (l j)} = cells p n Q f := by
  have hu : ∀ j, p + b + a' j = p + (b + a' j) ∧ p + b + n + a' j = p + (b + a' j) + n := fun j =>
    ⟨by omega, by omega⟩
  have hl : ∀ j, p + b + d + a' j = p + (b + a' j + d) ∧ p + b + d + n + a' j = p + (b + a' j + d) + n :=
    fun j => ⟨by omega, by omega⟩
  have houtputs : ∀ j < k, outputs (rows (p + b) d n) (a j) (u j) (l j) =
      cells p n {b + a' j, b + a' j + d} f := by
    intro j hj
    obtain ⟨ha, hsum, hdiff⟩ := h j hj
    ext e
    simp only [outputs, rows, cells, ha, hsum, hdiff, hu, hl, Set.mem_insert_iff, Set.mem_singleton_iff,
      Set.mem_ofPred_eq, exists_eq_or_imp, exists_eq_left, or_assoc]
  ext e
  constructor
  · rintro ⟨j, hj, he⟩
    rw [houtputs j hj] at he
    obtain ⟨q, hq, he⟩ := he
    exact ⟨q, (hQ q).mpr ⟨j, hj, hq⟩, he⟩
  · rintro ⟨q, hq, he⟩
    obtain ⟨j, hj, hq⟩ := (hQ q).mp hq
    exact ⟨j, hj, by rw [houtputs j hj]; exact ⟨q, hq, he⟩⟩

end Fft

end CachePool
