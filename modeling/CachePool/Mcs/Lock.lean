import CachePool.Lib.Machine
import CachePool.Lib.QueueLock

/-!
# The MCS lock and its binding table (`mcs_lock.c`)

Each hart has a row of slots, each slot a queue node and the lock it is bound to.  A hart searches its row
from the slot with its own index on.  A run is a list of harts, each with the call it makes if it is not in
one, oldest first; every store, load and atomic operation on the tail, a `next` or a `locked` is one step.

* `step` — one step of a hart in `mcs_lock_acquire`, `mcs_lock_try_acquire` or `mcs_lock_release`.
* `arrivals`, `grants`, `released` — the history of each lock: its tail exchanges, when it was obtained, and
  when it was given up.
* `roleOf` — what the hart of a node is doing with it; `roleOf_of_ne`, `roleOf_of_none` say which nodes a
  hart's step concerns.
-/

set_option autoImplicit false

namespace CachePool

namespace Mcs

variable {H S : Nat} {Λ : Type}

/-- `struct mcs_node`, by its place in `mcs_bindings`. -/
structure Node (H S : Nat) where
  hart : Fin H
  slot : Fin S
  deriving DecidableEq, Repr

/-- The call a hart makes. -/
inductive Call (Λ : Type) where
  | acquire (L : Λ)
  | tryAcquire (L : Λ)
  | release (L : Λ)

/-- Where a hart is: the step it takes next, with the lock `L` and the slot `i` of the call. -/
inductive Pc (H S : Nat) (Λ : Type) where
  /-- in no call -/
  | idle
  /-- `mcs_bind_acquire_slot`: the search for a free slot, for `mcs_lock_try_acquire` or `mcs_lock_acquire` -/
  | bind (isTry : Bool) (L : Λ)
  | bindNext (isTry : Bool) (L : Λ) (i : Fin S)
  | bindLocked (isTry : Bool) (L : Λ) (i : Fin S)
  /-- the store of NULL to `me->next` -/
  | clearNext (isTry : Bool) (L : Λ) (i : Fin S)
  /-- the store of false to `me->locked` in `mcs_lock_try_acquire` -/
  | clearLocked (L : Λ) (i : Fin S)
  | compareExchange (L : Λ) (i : Fin S)
  /-- the exchange of the tail in `mcs_lock_acquire` -/
  | exchange (L : Λ) (i : Fin S)
  | setLocked (L : Λ) (i : Fin S) (pred : Node H S)
  | link (L : Λ) (i : Fin S) (pred : Node H S)
  | spin (L : Λ) (i : Fin S)
  /-- `mcs_bind_find` -/
  | find (L : Λ)
  | load (L : Λ) (i : Fin S)
  /-- the attempt to swing the tail back to NULL -/
  | closeTail (L : Λ) (i : Fin S)
  /-- a successor is enqueuing -/
  | await (L : Λ) (i : Fin S)
  | handoff (L : Λ) (i : Fin S) (succ : Node H S)
  /-- `mcs_bind_release_slot` -/
  | unbind (i : Fin S)

/-- The locks, the binding table, the harts, and the history of each lock. -/
structure Sys (H S : Nat) (Λ : Type) where
  tail : Λ → Option (Node H S)
  next : Node H S → Option (Node H S)
  locked : Node H S → Bool
  lock : Node H S → Option Λ
  inUse : Node H S → Bool
  pc : Fin H → Pc H S Λ
  arrivals : Λ → List (Node H S)
  grants : Λ → List (Node H S)
  released : Λ → List (Node H S)

namespace Sys

/-- All locks after `mcs_lock_init`, no slot in use. -/
def init : Sys H S Λ where
  tail := fun _ => none
  next := fun _ => none
  locked := fun _ => false
  lock := fun _ => none
  inUse := fun _ => false
  pc := fun _ => .idle
  arrivals := fun _ => []
  grants := fun _ => []
  released := fun _ => []

variable [DecidableEq Λ] (s : Sys H S Λ)

/-- The first free slot of hart `h`, searched from its own index on. -/
def freeSlot (h : Fin H) : Option (Fin S) :=
  (List.finRange S).find? fun i => decide (h.val ≤ i.val) && !s.inUse ⟨h, i⟩

/-- `mcs_bind_find`. -/
def boundSlot (h : Fin H) (L : Λ) : Option (Fin S) :=
  (List.finRange S).find? fun i =>
    decide (h.val ≤ i.val) && (s.inUse ⟨h, i⟩ && decide (s.lock ⟨h, i⟩ = some L))

def setPc (h : Fin H) (pc : Pc H S Λ) : Sys H S Λ := { s with pc := Function.update s.pc h pc }

/-- Where a call starts. -/
def start : Call Λ → Pc H S Λ
  | .acquire L => .bind false L
  | .tryAcquire L => .bind true L
  | .release L => .find L

/-- One step of hart `h`, which makes `call` if it is in none. -/
def step (h : Fin H) (call : Call Λ) : Sys H S Λ :=
  match s.pc h with
  | .idle => s.setPc h (start call)
  | .bind isTry L =>
    match s.freeSlot h with
    | some i =>
      { s with inUse := Function.update s.inUse ⟨h, i⟩ true
               lock := Function.update s.lock ⟨h, i⟩ (some L) }.setPc h (.bindNext isTry L i)
    | none => s
  | .bindNext isTry L i =>
    { s with next := Function.update s.next ⟨h, i⟩ none }.setPc h (.bindLocked isTry L i)
  | .bindLocked isTry L i =>
    { s with locked := Function.update s.locked ⟨h, i⟩ false }.setPc h (.clearNext isTry L i)
  | .clearNext isTry L i =>
    { s with next := Function.update s.next ⟨h, i⟩ none
      }.setPc h (if isTry then .clearLocked L i else .exchange L i)
  | .clearLocked L i =>
    { s with locked := Function.update s.locked ⟨h, i⟩ false }.setPc h (.compareExchange L i)
  | .compareExchange L i =>
    match s.tail L with
    | none =>
      { s with tail := Function.update s.tail L (some ⟨h, i⟩)
               arrivals := Function.update s.arrivals L (s.arrivals L ++ [Node.mk h i])
               grants := Function.update s.grants L (s.grants L ++ [Node.mk h i]) }.setPc h .idle
    | some _ => s.setPc h (.unbind i)
  | .exchange L i =>
    match s.tail L with
    | none =>
      { s with tail := Function.update s.tail L (some ⟨h, i⟩)
               arrivals := Function.update s.arrivals L (s.arrivals L ++ [Node.mk h i])
               grants := Function.update s.grants L (s.grants L ++ [Node.mk h i]) }.setPc h .idle
    | some pred =>
      { s with tail := Function.update s.tail L (some ⟨h, i⟩)
               arrivals := Function.update s.arrivals L (s.arrivals L ++ [Node.mk h i])
        }.setPc h (.setLocked L i pred)
  | .setLocked L i pred =>
    { s with locked := Function.update s.locked ⟨h, i⟩ true }.setPc h (.link L i pred)
  | .link L i pred =>
    { s with next := Function.update s.next pred (some ⟨h, i⟩) }.setPc h (.spin L i)
  | .spin L i =>
    if s.locked ⟨h, i⟩ then s
    else { s with grants := Function.update s.grants L (s.grants L ++ [Node.mk h i]) }.setPc h .idle
  | .find L =>
    match s.boundSlot h L with
    | some i => s.setPc h (.load L i)
    -- a lock the hart does not hold
    | none => s.setPc h .idle
  | .load L i =>
    match s.next ⟨h, i⟩ with
    | some succ => s.setPc h (.handoff L i succ)
    | none => s.setPc h (.closeTail L i)
  | .closeTail L i =>
    if s.tail L = some ⟨h, i⟩ then
      { s with tail := Function.update s.tail L none
               released := Function.update s.released L (s.released L ++ [Node.mk h i]) }.setPc h (.unbind i)
    else s.setPc h (.await L i)
  | .await L i =>
    match s.next ⟨h, i⟩ with
    | some succ => s.setPc h (.handoff L i succ)
    | none => s
  | .handoff L i succ =>
    { s with locked := Function.update s.locked succ false
             released := Function.update s.released L (s.released L ++ [Node.mk h i]) }.setPc h (.unbind i)
  | .unbind i =>
    { s with lock := Function.update s.lock ⟨h, i⟩ none
             inUse := Function.update s.inUse ⟨h, i⟩ false }.setPc h .idle

def machine (H S : Nat) (Λ : Type) [DecidableEq Λ] : Machine (Sys H S Λ) (Fin H × Call Λ) :=
  ⟨init, fun s x => s.step x.1 x.2⟩

end Sys

/-! ## What a hart does with a node -/

open QueueLock

/-- The slot the call of a hart works on, and what it does with it. -/
def Pc.work : Pc H S Λ → Option (Fin S × Role (Node H S) Λ)
  | .idle => none
  | .bind _ _ => none
  | .bindNext _ _ i => some (i, .out)
  | .bindLocked _ _ i => some (i, .out)
  | .clearNext _ _ i => some (i, .out)
  | .clearLocked L i => some (i, .ready L)
  | .compareExchange L i => some (i, .ready L)
  | .exchange L i => some (i, .ready L)
  | .setLocked L i pred => some (i, .setLocked L pred)
  | .link L i pred => some (i, .link L pred)
  | .spin L i => some (i, .spin L)
  | .find _ => none
  | .load L i => some (i, .load L)
  | .closeTail L i => some (i, .cas L)
  | .await L i => some (i, .wait L)
  | .handoff L i succ => some (i, .handoff L succ)
  | .unbind i => some (i, .out)

/-- The slot a call has bound and not given up, and its lock. -/
def Pc.bound : Pc H S Λ → Option (Fin S × Λ)
  | .bindNext _ L i => some (i, L)
  | .bindLocked _ L i => some (i, L)
  | .clearNext _ L i => some (i, L)
  | .clearLocked L i => some (i, L)
  | .compareExchange L i => some (i, L)
  | .exchange L i => some (i, L)
  | .setLocked L i _ => some (i, L)
  | .link L i _ => some (i, L)
  | .spin L i => some (i, L)
  | .load L i => some (i, L)
  | .closeTail L i => some (i, L)
  | .await L i => some (i, L)
  | .handoff L i _ => some (i, L)
  | _ => none

namespace Sys

variable (s : Sys H S Λ)

/-- A slot on which no call works is free, or its lock is held. -/
def restRole (b : Node H S) : Role (Node H S) Λ :=
  match s.inUse b, s.lock b with
  | true, some L => .held L
  | _, _ => .out

/-- What the hart of a node is doing with it. -/
def roleOf (b : Node H S) : Role (Node H S) Λ :=
  match (s.pc b.hart).work with
  | some (i, r) => if i = b.slot then r else s.restRole b
  | none => s.restRole b

variable {s} {t : Sys H S Λ} {h : Fin H} {i : Fin S}

theorem roleOf_of_work {r : Role (Node H S) Λ} (hw : (s.pc h).work = some (i, r)) :
    s.roleOf ⟨h, i⟩ = r := by
  simp only [roleOf, hw, if_true]

theorem roleOf_of_rest (hw : (s.pc h).work = none) : s.roleOf ⟨h, i⟩ = s.restRole ⟨h, i⟩ := by
  simp only [roleOf, hw]

theorem restRole_of_bound {b : Node H S} {L : Λ} (hu : s.inUse b = true) (hl : s.lock b = some L) :
    s.restRole b = .held L := by
  simp only [restRole, hu, hl]

theorem restRole_of_free {b : Node H S} (hu : s.inUse b = false) : s.restRole b = .out := by
  simp only [restRole, hu]

theorem restRole_congr {b : Node H S} (hu : t.inUse b = s.inUse b) (hl : t.lock b = s.lock b) :
    t.restRole b = s.restRole b := by
  simp only [restRole, hu, hl]

/-- **What a step does not concern.**  A step of hart `h` in a call that works on slot `i` changes the role of
no other node. -/
theorem roleOf_of_ne {pc : Pc H S Λ} (hpc : t.pc = Function.update s.pc h pc)
    (hold : ∀ x, (s.pc h).work = some x → x.1 = i) (hnew : ∀ x, pc.work = some x → x.1 = i)
    (htable : ∀ b, b ≠ ⟨h, i⟩ → t.inUse b = s.inUse b ∧ t.lock b = s.lock b) {b : Node H S}
    (hb : b ≠ ⟨h, i⟩) : t.roleOf b = s.roleOf b := by
  obtain ⟨hu, hl⟩ := htable b hb
  have hrest := restRole_congr hu hl
  by_cases hh : b.hart = h
  · have hslot : i ≠ b.slot := by
      rintro rfl
      exact hb (by rw [← hh])
    unfold roleOf
    rw [hpc, hh, Function.update_self, hrest]
    cases ho : (s.pc h).work with
    | none =>
      cases hn : pc.work with
      | none => rfl
      | some x => simp only [hnew x hn, if_neg hslot]
    | some y =>
      cases hn : pc.work with
      | none => simp only [hold y ho, if_neg hslot]
      | some x => simp only [hnew x hn, hold y ho, if_neg hslot]
  · unfold roleOf
    rw [hpc, Function.update_of_ne hh, hrest]

/-- A step between two places that work on no slot changes no role. -/
theorem roleOf_of_none {pc : Pc H S Λ} (hpc : t.pc = Function.update s.pc h pc)
    (hold : (s.pc h).work = none) (hnew : pc.work = none) (hu : t.inUse = s.inUse)
    (hl : t.lock = s.lock) : t.roleOf = s.roleOf := by
  funext b
  have hrest := restRole_congr (congrFun hu b) (congrFun hl b)
  unfold roleOf
  by_cases hh : b.hart = h
  · rw [hpc, hh, Function.update_self, hold, hnew]
    exact hrest
  · rw [hpc, Function.update_of_ne hh, hrest]

/-- A step of a call that works on slot `i` changes the role of that node at most. -/
theorem roleOf_eq_update {a : Pc H S Λ} {r : Role (Node H S) Λ}
    (hpc : t.pc = Function.update s.pc h a) (hold : ∀ x, (s.pc h).work = some x → x.1 = i)
    (hnew : ∀ x, a.work = some x → x.1 = i)
    (htable : ∀ b, b ≠ ⟨h, i⟩ → t.inUse b = s.inUse b ∧ t.lock b = s.lock b)
    (hr : t.roleOf ⟨h, i⟩ = r) : t.roleOf = Function.update s.roleOf ⟨h, i⟩ r := by
  funext b
  by_cases hb : b = ⟨h, i⟩
  · rw [hb, Function.update_self, hr]
  · rw [Function.update_of_ne hb]
    exact roleOf_of_ne hpc hold hnew htable hb

end Sys

end Mcs

end CachePool
