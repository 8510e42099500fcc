import Mathlib.Logic.Function.Basic
import Mathlib.Data.List.Induction

/-!
# A memory spread over shards

Writes are applied in order, so that the last one to an address is the one that is read.  Where each address
has one place in one of several shards, the shards can take the writes one after the other, each those that
belong to it: what is read through the places is what one memory would have.

* `lastWrite` — the last write to an address; `apply_eq` — a memory after writes.
* `view_load` — one shard; `view_loadAll` — all of them, in any order.
-/

set_option autoImplicit false

namespace Shards

universe u v w x

variable {α : Type u} {ι : Type v} {κ : Type w} {β : Type x} [DecidableEq α] [DecidableEq ι] [DecidableEq κ]

/-- The memory after the writes `ws`, in order. -/
def apply (ws : List (α × β)) (m : α → β) : α → β :=
  ws.foldl (fun m e => Function.update m e.1 e.2) m

/-- The last value written to an address. -/
def lastWrite (ws : List (α × β)) (a : α) : Option β :=
  (ws.reverse.find? fun e => e.1 = a).map Prod.snd

/-- The shards after shard `c` has taken the writes that `place` gives to it. -/
def load (place : α → ι × κ) (c : ι) (ws : List (α × β)) (g : ι → κ → β) : ι → κ → β :=
  ws.foldl (fun g e =>
    if (place e.1).1 = c then Function.update g c (Function.update (g c) (place e.1).2 e.2) else g) g

/-- The shards as one memory. -/
def view (place : α → ι × κ) (g : ι → κ → β) (a : α) : β := g (place a).1 (place a).2

/-! ## The last write -/

theorem lastWrite_append (ws vs : List (α × β)) (a : α) :
    lastWrite (ws ++ vs) a = (lastWrite vs a).or (lastWrite ws a) := by
  rw [lastWrite, List.reverse_append, List.find?_append, Option.map_or]
  rfl

theorem lastWrite_eq_none {ws : List (α × β)} {a : α} (h : ∀ e ∈ ws, e.1 ≠ a) : lastWrite ws a = none := by
  rw [lastWrite, Option.map_eq_none_iff, List.find?_eq_none]
  intro e he
  simpa using h e (List.mem_reverse.mp he)

/-- Where all writes to an address agree, the last one is any of them. -/
theorem lastWrite_eq_some {ws : List (α × β)} {a : α} {b : β} (hmem : (a, b) ∈ ws)
    (h : ∀ e ∈ ws, e.1 = a → e.2 = b) : lastWrite ws a = some b := by
  rw [lastWrite]
  cases hfind : ws.reverse.find? fun e => e.1 = a with
  | none =>
    have := List.find?_eq_none.mp hfind (a, b) (List.mem_reverse.mpr hmem)
    simp at this
  | some e =>
    have hea : e.1 = a := by simpa using List.find?_some hfind
    rw [Option.map_some, h e (List.mem_reverse.mp (List.mem_of_find?_eq_some hfind)) hea]

theorem apply_eq (ws : List (α × β)) (m : α → β) (a : α) : apply ws m a = (lastWrite ws a).getD (m a) := by
  induction ws using List.reverseRecOn with
  | nil => rfl
  | append_singleton ws e ih =>
    rw [apply, List.foldl_append, List.foldl_cons, List.foldl_nil, lastWrite_append]
    by_cases hea : e.1 = a
    · subst hea
      simp [lastWrite]
    · rw [Function.update_of_ne (Ne.symm hea)]
      simpa [lastWrite, apply, hea] using ih

/-! ## Shards -/

omit [DecidableEq α] in
theorem load_append (place : α → ι × κ) (c : ι) (ws vs : List (α × β)) (g : ι → κ → β) :
    load place c (ws ++ vs) g = load place c vs (load place c ws g) :=
  List.foldl_append

variable {place : α → ι × κ} (hplace : Function.Injective place)
include hplace

/-- A shard that takes its writes takes them for the addresses that are placed in it. -/
theorem view_load (c : ι) (ws : List (α × β)) (g : ι → κ → β) (a : α) :
    view place (load place c ws g) a =
      if (place a).1 = c then apply ws (view place g) a else view place g a := by
  induction ws generalizing g with
  | nil => simp [load, apply]
  | cons e ws ih =>
    have hstep : load place c (e :: ws) g = load place c ws (if (place e.1).1 = c then
        Function.update g c (Function.update (g c) (place e.1).2 e.2) else g) := rfl
    rw [hstep, ih, apply_eq, apply_eq, show e :: ws = [e] ++ ws from rfl, lastWrite_append]
    by_cases ha : (place a).1 = c
    · subst ha
      rw [if_pos rfl, if_pos rfl]
      cases lastWrite ws a with
      | some b => rfl
      | none =>
        by_cases hea : e.1 = a
        · subst hea
          simp [lastWrite, view]
        · have hne : place a ≠ place e.1 := fun h => hea (hplace h).symm
          by_cases hshard : (place e.1).1 = (place a).1
          · have hkey : (place a).2 ≠ (place e.1).2 := fun h => hne (Prod.ext hshard.symm h)
            simp [lastWrite, view, hea, hshard, hkey]
          · simp [lastWrite, view, hea, hshard]
    · rw [if_neg ha, if_neg ha]
      split
      · rw [view, Function.update_of_ne ha]
        rfl
      · rfl

/-- **Each shard takes its part of the writes, in any order of the shards**: all the addresses placed in them
have been written as in one memory. -/
theorem view_loadAll (cs : List ι) (ws : List (α × β)) (g : ι → κ → β) (a : α) :
    view place (cs.foldl (fun g c => load place c ws g) g) a =
      if (place a).1 ∈ cs then apply ws (view place g) a else view place g a := by
  induction cs generalizing g with
  | nil => simp
  | cons c cs ih =>
    rw [List.foldl_cons, ih, apply_eq, apply_eq, view_load hplace, apply_eq]
    by_cases hc : (place a).1 = c
    · cases lastWrite ws a <;> simp [hc]
    · simp [hc]

end Shards
