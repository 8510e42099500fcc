import Mathlib.Data.List.Basic

/-!
# Returns in the order of acceptance, key by key

Things are accepted one after another, wait, and are returned one at a time.  Things of different keys may
overtake each other, those of one key may not.

* `Split` — key by key, what was accepted is what was returned followed by what waits.
* `Split.inOrder` — then every key has its things returned in the order they were accepted in.
* `oldest_iff_of_kind` — when the oldest thing of a key among those of one kind is the oldest of the key.
* `Split.accept`, `Split.give` — an acceptance keeps the split, and so does the return of the oldest waiting
  thing of a key; `Split.inOrder_give_iff` — no other return keeps the order.
-/

set_option autoImplicit false

universe u v w

namespace KeyOrder

variable {α : Type u} {κ : Type v} [DecidableEq κ] (key : α → κ)

/-- The things of key `k`, in their order. -/
def ofKey (k : κ) (xs : List α) : List α := xs.filter fun x => key x = k

/-- The oldest thing of key `k`. -/
def oldest (k : κ) (xs : List α) : Option α := xs.find? fun x => key x = k

/-- Every key has its things returned in the order they were accepted in. -/
def InOrder (accepted returned : List α) : Prop :=
  ∀ k, ofKey key k returned <+: ofKey key k accepted

/-- Key by key, what was accepted has been returned or still waits. -/
def Split (accepted returned waiting : List α) : Prop :=
  ∀ k, ofKey key k accepted = ofKey key k returned ++ ofKey key k waiting

variable {key}

theorem ofKey_append (k : κ) (xs ys : List α) :
    ofKey key k (xs ++ ys) = ofKey key k xs ++ ofKey key k ys :=
  List.filter_append ..

theorem ofKey_self (x : α) : ofKey key (key x) [x] = [x] := by
  simp [ofKey]

theorem ofKey_other {k : κ} {x : α} (h : key x ≠ k) : ofKey key k [x] = [] := by
  simp [ofKey, h]

theorem head?_ofKey (k : κ) (xs : List α) : (ofKey key k xs).head? = oldest key k xs :=
  List.head?_filter

theorem key_of_oldest {k : κ} {xs : List α} {x : α} (h : oldest key k xs = some x) : key x = k := by
  have hk := List.find?_some h
  exact of_decide_eq_true hk

theorem oldest_append {k : κ} {xs : List α} {x : α} (h : oldest key k xs = some x) (ys : List α) :
    oldest key k (xs ++ ys) = some x := by
  rw [← head?_ofKey] at h ⊢
  rw [ofKey_append, List.head?_append, h, Option.some_or]

/-- The oldest thing of a key that is of kind `c` too is the oldest of the key exactly when no thing of the
key that is not of kind `c` is. -/
theorem oldest_iff_of_kind {μ : Type w} [DecidableEq μ] {kind : α → μ} {c : μ} {k : κ} {xs : List α} {x : α}
    (h : oldest key k (ofKey kind c xs) = some x) :
    oldest key k xs = some x ↔ ∀ y, oldest key k xs = some y → kind y = c := by
  have hx := List.mem_of_find?_eq_some h
  have hkind : kind x = c := of_decide_eq_true (List.mem_filter.mp hx).2
  have hcomm : ofKey key k (ofKey kind c xs) = ofKey kind c (ofKey key k xs) := List.filter_comm ..
  rw [← head?_ofKey, hcomm] at h
  rw [← head?_ofKey]
  cases hof : ofKey key k xs with
  | nil =>
    rw [hof] at h
    simp [ofKey] at h
  | cons y rest =>
    rw [hof] at h
    constructor
    · rintro hy z hz
      rw [hy] at hz
      cases hz
      exact hkind
    · intro hall
      have hy := hall y rfl
      simpa [ofKey, hy] using h

section Erase

variable [DecidableEq α]

theorem ofKey_erase_other {k : κ} {x : α} (h : key x ≠ k) (xs : List α) :
    ofKey key k (xs.erase x) = ofKey key k xs := by
  rw [ofKey, ← List.erase_filter]
  apply List.erase_of_not_mem
  intro hmem
  exact h (of_decide_eq_true (List.mem_filter.mp hmem).2)

theorem ofKey_of_oldest {x : α} {xs : List α} (h : oldest key (key x) xs = some x) :
    ofKey key (key x) xs = x :: ofKey key (key x) (xs.erase x) := by
  rw [← head?_ofKey] at h
  obtain ⟨rest, hrest⟩ := List.head?_eq_some_iff.mp h
  have herase : ofKey key (key x) (xs.erase x) = (ofKey key (key x) xs).erase x := List.erase_filter.symm
  rw [herase, hrest, List.erase_cons_head]

end Erase

namespace Split

variable {accepted returned waiting : List α}

theorem nil : Split key [] [] ([] : List α) := fun _ => rfl

theorem inOrder (h : Split key accepted returned waiting) : InOrder key accepted returned :=
  fun k => ⟨_, (h k).symm⟩

theorem accept (h : Split key accepted returned waiting) (xs : List α) :
    Split key (accepted ++ xs) returned (waiting ++ xs) := by
  intro k
  rw [ofKey_append, ofKey_append, h k, List.append_assoc]

theorem give [DecidableEq α] (h : Split key accepted returned waiting) {x : α}
    (hx : oldest key (key x) waiting = some x) :
    Split key accepted (returned ++ [x]) (waiting.erase x) := by
  intro k
  rw [h k, ofKey_append]
  by_cases hk : key x = k
  · subst hk
    rw [ofKey_of_oldest hx, ofKey_self, List.append_assoc, List.singleton_append]
  · rw [ofKey_other hk, ofKey_erase_other hk, List.append_nil]

/-- **Only the oldest of its key may be returned.** -/
theorem inOrder_give_iff [DecidableEq α] (h : Split key accepted returned waiting) {x : α} :
    InOrder key accepted (returned ++ [x]) ↔ oldest key (key x) waiting = some x := by
  constructor
  · intro horder
    obtain ⟨rest, hrest⟩ := horder (key x)
    rw [h, ofKey_append, ofKey_self, List.append_assoc] at hrest
    rw [← head?_ofKey, ← List.append_cancel_left hrest]
    rfl
  · intro hx k
    rw [h k, ofKey_append]
    apply (List.prefix_append_right_inj _).mpr
    by_cases hk : key x = k
    · subst hk
      rw [ofKey_self, ofKey_of_oldest hx]
      exact List.prefix_append [x] _
    · rw [ofKey_other hk]
      exact List.nil_prefix

end Split

end KeyOrder
