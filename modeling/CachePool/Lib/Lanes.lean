import Mathlib.Data.List.Basic
import Mathlib.Data.List.Range

/-!
# Lanes, logs and answers by position

A loop over the lanes of a state whose pass for a lane touches that lane only, and the ledger of a lane
whose entries are answered in any order.

* `lane_foldl` — each lane is stepped once, from where it was before the loop.
* `log_foldl` — what the passes append to a log, in the order of the lanes.
* `waiting` — the entries left to a reader that drops its oldest entry at every answer, whichever entry the
  answer is for.
* `waiting_concat`, `map_waiting_mark`, `map_waiting_modify` — what a new entry, an answer and any other
  change of an entry do to it.
* `exists_waiting` — while some entry is unanswered, some entry is left.
-/

set_option autoImplicit false

universe u v w

section Lanes

variable {σ : Type u} {β : Type v} {L : σ → Nat → β} {f : Nat → σ → σ}

/-- **The lane rule.**  The pass for lane `k` is `g k` on that lane and leaves the others alone. -/
theorem lane_foldl {g : Nat → β → β} (hown : ∀ k s, L (f k s) k = g k (L s k))
    (hother : ∀ j k s, j ≠ k → L (f j s) k = L s k) (K : Nat) (s : σ) (k : Nat) :
    L ((List.range K).foldl (fun s j => f j s) s) k = if k < K then g k (L s k) else L s k := by
  induction K with
  | zero => simp
  | succ K ih =>
    rw [List.range_succ, List.foldl_append, List.foldl_cons, List.foldl_nil]
    by_cases hk : K = k
    · subst hk
      rw [hown, ih, if_neg (Nat.lt_irrefl K), if_pos (Nat.lt_succ_self K)]
    · rw [hother K k _ hk, ih]
      by_cases hlt : k < K
      · rw [if_pos hlt, if_pos (by omega)]
      · rw [if_neg hlt, if_neg (by omega)]

/-- **The log rule.**  The pass for a lane logs what its own lane says. -/
theorem log_foldl {ω : Type w} {g : Nat → β → β} {log : σ → List ω} {e : Nat → β → List ω}
    (hown : ∀ k s, L (f k s) k = g k (L s k))
    (hother : ∀ j k s, j ≠ k → L (f j s) k = L s k)
    (hlog : ∀ k s, log (f k s) = log s ++ e k (L s k)) (K : Nat) (s : σ) :
    log ((List.range K).foldl (fun s j => f j s) s) =
      log s ++ (List.range K).flatMap (fun k => e k (L s k)) := by
  induction K with
  | zero => simp
  | succ K ih =>
    rw [List.range_succ, List.foldl_append, List.foldl_cons, List.foldl_nil, hlog, ih,
      lane_foldl hown hother, if_neg (Nat.lt_irrefl K), List.flatMap_append, List.append_assoc]
    simp

end Lanes

section Waiting

variable {α : Type u} {β : Type v}

theorem map_modify_of_eq {g : α → β} {f : α → α} (h : ∀ a, g (f a) = g a) (l : List α) (i : Nat) :
    (l.modify i f).map g = l.map g := by
  apply List.ext_getElem?
  intro j
  rw [List.getElem?_map, List.getElem?_map, List.getElem?_modify]
  cases l[j]? with
  | none => rfl
  | some a => by_cases hij : i = j <;> simp [hij, h]

theorem countP_modify_of_eq {p : α → Bool} {f : α → α} (h : ∀ a, p (f a) = p a) (l : List α) (i : Nat) :
    (l.modify i f).countP p = l.countP p := by
  have hmap := congrArg (List.countP id) (map_modify_of_eq h l i)
  rwa [List.countP_map, List.countP_map] at hmap

/-- One more entry is marked. -/
theorem countP_modify_mark {p : α → Bool} {f : α → α} {l : List α} {i : Nat} {a : α} (ha : l[i]? = some a)
    (hbefore : p a = false) (hafter : p (f a) = true) : (l.modify i f).countP p = l.countP p + 1 := by
  induction l generalizing i with
  | nil => simp at ha
  | cons x l ih =>
    cases i with
    | zero =>
      obtain rfl : x = a := by simpa using ha
      simp [hbefore, hafter]
    | succ i =>
      have htail := ih (i := i) (by simpa using ha)
      rw [List.modify_succ_cons, List.countP_cons, List.countP_cons, htail]
      omega

theorem countP_lt_length {p : α → Bool} {l : List α} {i : Nat} {a : α} (ha : l[i]? = some a)
    (hp : p a = false) : l.countP p < l.length := by
  apply Nat.lt_of_le_of_ne List.countP_le_length
  intro heq
  have hall := List.countP_eq_length.mp heq a (List.mem_of_getElem? ha)
  rw [hp] at hall
  cases hall

/-- The entries left when one has been dropped, oldest first, for each that is answered. -/
def waiting (p : α → Bool) (l : List α) : List α := l.drop (l.countP p)

theorem waiting_concat {p : α → Bool} {a : α} (ha : p a = false) (l : List α) :
    waiting p (l ++ [a]) = waiting p l ++ [a] := by
  have hcount : (l ++ [a]).countP p = l.countP p := by simp [ha]
  rw [waiting, waiting, hcount, List.drop_append_of_le_length List.countP_le_length]

/-- A change that answers nothing. -/
theorem map_waiting_modify {p : α → Bool} {g : α → β} {f : α → α} (hp : ∀ a, p (f a) = p a)
    (hg : ∀ a, g (f a) = g a) (l : List α) (i : Nat) :
    (waiting p (l.modify i f)).map g = (waiting p l).map g := by
  rw [waiting, waiting, countP_modify_of_eq hp, List.map_drop, List.map_drop, map_modify_of_eq hg]

/-- **The pairing rule.**  An answer to any entry drops the oldest one left. -/
theorem map_waiting_mark {p : α → Bool} {g : α → β} {f : α → α} {l : List α} {i : Nat} {a : α}
    (ha : l[i]? = some a) (hbefore : p a = false) (hafter : p (f a) = true) (hg : ∀ a, g (f a) = g a) :
    (waiting p (l.modify i f)).map g = ((waiting p l).map g).tail := by
  rw [waiting, waiting, countP_modify_mark ha hbefore hafter, List.map_drop, List.map_drop,
    map_modify_of_eq hg, List.tail_drop]

theorem head?_waiting (p : α → Bool) (l : List α) : (waiting p l).head? = l[l.countP p]? := by
  rw [waiting, List.head?_drop]

theorem exists_waiting {p : α → Bool} {l : List α} {i : Nat} {a : α} (ha : l[i]? = some a)
    (hp : p a = false) : ∃ d, l[l.countP p]? = some d :=
  ⟨_, List.getElem?_eq_getElem (countP_lt_length ha hp)⟩

end Waiting
