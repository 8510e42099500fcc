import CachePool.Mcs.Lock

/-!
# The MCS lock is a queue lock

* `Bound` — the slot a call has bound is in use, for the lock of the call.
* `view_step` — under `Bound` every step of a hart is a step of the queue-lock protocol, or changes nothing it
  sees.
* `LockSafe` — one holder, grants in the order of the tail exchanges, no waiter without a hand-over, and no
  release that waits for a link in vain.
* `mcs_lock_correct` — every lock is safe in every run.
-/

set_option autoImplicit false

namespace CachePool

namespace Mcs

open QueueLock

variable {H S : Nat} {Λ : Type}

namespace Sys

variable (s : Sys H S Λ)

/-- The slot a call works on is bound to its lock. -/
def Bound : Prop :=
  ∀ h i L, (s.pc h).bound = some (i, L) → s.inUse ⟨h, i⟩ = true ∧ s.lock ⟨h, i⟩ = some L

/-- The locks and nodes as the protocol sees them; `q` is the queue of each lock. -/
def view (q : Λ → List (Node H S)) : State (Node H S) Λ :=
  ⟨s.roleOf, s.tail, s.next, s.locked, q, s.arrivals, s.grants, s.released⟩

variable {s} {t : Sys H S Λ} {h : Fin H} {i : Fin S}

theorem view_of_roleOf {f : Node H S → Role (Node H S) Λ} {q : Λ → List (Node H S)}
    (hrole : t.roleOf = f) :
    t.view q = ⟨f, t.tail, t.next, t.locked, q, t.arrivals, t.grants, t.released⟩ := by
  rw [view, hrole]

/-! ## Roles after a step -/

/-- A call works on its slot after the step, and on no other before. -/
theorem roleOf_work {pc : Pc H S Λ} {r : Role (Node H S) Λ} (hold : ∀ x, (s.pc h).work = some x → x.1 = i)
    (hnew : pc.work = some (i, r)) (hpc : t.pc = Function.update s.pc h pc) (hu : t.inUse = s.inUse)
    (hl : t.lock = s.lock) : t.roleOf = Function.update s.roleOf ⟨h, i⟩ r := by
  refine roleOf_eq_update hpc hold ?_ (fun b _ => ⟨congrFun hu b, congrFun hl b⟩) ?_
  · intro x hx
    rw [hnew] at hx
    cases hx
    rfl
  · exact roleOf_of_work (by rw [hpc, Function.update_self, hnew])

/-- A call goes on with its slot. -/
theorem roleOf_go_on {pc : Pc H S Λ} {o r : Role (Node H S) Λ}
    (hold : (s.pc h).work = some (i, o)) (hnew : pc.work = some (i, r))
    (hpc : t.pc = Function.update s.pc h pc) (hu : t.inUse = s.inUse) (hl : t.lock = s.lock) :
    t.roleOf = Function.update s.roleOf ⟨h, i⟩ r := by
  refine roleOf_work (fun x hx => ?_) hnew hpc hu hl
  rw [hold] at hx
  cases hx
  rfl

/-- A call goes on with its slot in the same role. -/
theorem roleOf_keep {pc : Pc H S Λ} {r : Role (Node H S) Λ}
    (hold : (s.pc h).work = some (i, r)) (hnew : pc.work = some (i, r))
    (hpc : t.pc = Function.update s.pc h pc) (hu : t.inUse = s.inUse) (hl : t.lock = s.lock) :
    t.roleOf = s.roleOf := by
  rw [roleOf_go_on hold hnew hpc hu hl, ← roleOf_of_work hold, Function.update_eq_self]

/-- A call finds its slot. -/
theorem roleOf_find {pc : Pc H S Λ} {r : Role (Node H S) Λ} (hold : (s.pc h).work = none)
    (hnew : pc.work = some (i, r)) (hpc : t.pc = Function.update s.pc h pc)
    (hu : t.inUse = s.inUse) (hl : t.lock = s.lock) :
    t.roleOf = Function.update s.roleOf ⟨h, i⟩ r := by
  refine roleOf_work (fun x hx => ?_) hnew hpc hu hl
  rw [hold] at hx
  cases hx

/-- A call returns with the lock of its slot. -/
theorem roleOf_return {r : Role (Node H S) Λ} {L : Λ} (hold : (s.pc h).work = some (i, r))
    (hbound : s.inUse ⟨h, i⟩ = true ∧ s.lock ⟨h, i⟩ = some L)
    (hpc : t.pc = Function.update s.pc h .idle) (hu : t.inUse = s.inUse) (hl : t.lock = s.lock) :
    t.roleOf = Function.update s.roleOf ⟨h, i⟩ (.held L) := by
  refine roleOf_eq_update hpc ?_ (fun _ hx => nomatch hx) (fun b _ => ⟨congrFun hu b, congrFun hl b⟩) ?_
  · intro x hx
    rw [hold] at hx
    cases hx
    rfl
  · rw [roleOf_of_rest (by rw [hpc, Function.update_self]; rfl)]
    exact restRole_of_bound (by rw [hu]; exact hbound.1) (by rw [hl]; exact hbound.2)

/-! ## What the lock guarantees -/

/-- The node of hart `h` waits for the lock: its exchange has found a predecessor. -/
def Waits (s : Sys H S Λ) (b : Node H S) (L : Λ) : Prop :=
  (∃ pred, s.pc b.hart = .setLocked L b.slot pred ∨ s.pc b.hart = .link L b.slot pred) ∨
    s.pc b.hart = .spin L b.slot

/-- The node's hart has obtained the lock and not given it up: the slot is bound and no call works on it, or
a release does and has neither closed the queue nor handed the lock on. -/
def Holds (s : Sys H S Λ) (b : Node H S) (L : Λ) : Prop :=
  (s.roleOf b).queued = some L ∧ (s.roleOf b).waiting = false

/-- **What the lock guarantees.** -/
structure LockSafe (s : Sys H S Λ) (L : Λ) : Prop where
  /-- grants and releases alternate, and the grant outstanding is the holder's -/
  exclusive : ∃ o : Option (Node H S), s.grants L = s.released L ++ o.toList ∧
    ∀ b, o = some b ↔ s.Holds b L
  /-- the lock is obtained in the order of the tail exchanges -/
  fifo : s.grants L <+: s.arrivals L
  /-- if a node waits and no node holds the lock, the one next in order has been handed it -/
  handed : (∃ b, s.Waits b L) → (∀ b, ¬ s.Holds b L) →
    ∃ c, (s.arrivals L)[(s.grants L).length]? = some c ∧ s.pc c.hart = .spin L c.slot ∧
      s.locked c = false
  /-- a release that waits for its successor has one that has linked itself or is about to -/
  linked : ∀ h i, s.pc h = .await L i → ∃ c, s.next ⟨h, i⟩ = some c ∨
    s.pc c.hart = .setLocked L c.slot ⟨h, i⟩ ∨ s.pc c.hart = .link L c.slot ⟨h, i⟩
  /-- if the tail is NULL, no node holds the lock or waits for it -/
  free : s.tail L = none → ∀ b, ¬ s.Holds b L ∧ ¬ s.Waits b L

/-- A node that waits is worked on by its hart's call. -/
theorem work_of_waiting {b : Node H S} (hw : (s.roleOf b).waiting = true) :
    (s.pc b.hart).work = some (b.slot, s.roleOf b) := by
  have hrest : (s.restRole b).waiting = false := by
    unfold restRole
    split <;> rfl
  cases hwork : (s.pc b.hart).work with
  | none =>
    rw [show s.roleOf b = s.restRole b from roleOf_of_rest hwork, hrest] at hw
    cases hw
  | some x =>
    obtain ⟨j, r⟩ := x
    by_cases hj : j = b.slot
    · subst hj
      rw [show s.roleOf b = r from roleOf_of_work hwork]
    · have hrole : s.roleOf b = s.restRole b := by simp only [roleOf, hwork, if_neg hj]
      rw [hrole, hrest] at hw
      cases hw

theorem pc_of_spin {b : Node H S} {L : Λ} (hr : s.roleOf b = .spin L) :
    s.pc b.hart = .spin L b.slot := by
  have hwork := work_of_waiting (s := s) (b := b) (by rw [hr]; rfl)
  rw [hr] at hwork
  cases hpc : s.pc b.hart <;> rw [hpc] at hwork <;> cases hwork
  rfl

theorem pc_of_pred {b p : Node H S} {L : Λ} (hq : (s.roleOf b).queued = some L)
    (hp : (s.roleOf b).pred = some p) :
    s.pc b.hart = .setLocked L b.slot p ∨ s.pc b.hart = .link L b.slot p := by
  cases hr : s.roleOf b with
  | setLocked l q =>
    rw [hr] at hq hp
    cases hq
    cases hp
    have hwork := work_of_waiting (s := s) (b := b) (by rw [hr]; rfl)
    rw [hr] at hwork
    left
    cases hpc : s.pc b.hart <;> rw [hpc] at hwork <;> cases hwork
    rfl
  | link l q =>
    rw [hr] at hq hp
    cases hq
    cases hp
    have hwork := work_of_waiting (s := s) (b := b) (by rw [hr]; rfl)
    rw [hr] at hwork
    right
    cases hpc : s.pc b.hart <;> rw [hpc] at hwork <;> cases hwork
    rfl
  | _ =>
    rw [hr] at hp
    cases hp

theorem Waits.queued {b : Node H S} {L : Λ} (hw : s.Waits b L) : (s.roleOf b).queued = some L := by
  rcases hw with ⟨pred, hpc | hpc⟩ | hpc
  · rw [show s.roleOf b = .setLocked L pred from roleOf_of_work (by rw [hpc]; rfl)]
    rfl
  · rw [show s.roleOf b = .link L pred from roleOf_of_work (by rw [hpc]; rfl)]
    rfl
  · rw [show s.roleOf b = .spin L from roleOf_of_work (by rw [hpc]; rfl)]
    rfl

/-! ## The binding table -/

/-- The slot found free is not in use. -/
theorem inUse_of_freeSlot (h' : s.freeSlot h = some i) : s.inUse ⟨h, i⟩ = false := by
  have hp := List.find?_some h'
  rw [Bool.and_eq_true, Bool.not_eq_true'] at hp
  exact hp.2

/-- A step that changes the table in the hart's own slots only. -/
theorem Bound.of_own (B : s.Bound) {pc : Pc H S Λ} (hpc : t.pc = Function.update s.pc h pc)
    (htable : ∀ a : Node H S, a.hart ≠ h → t.inUse a = s.inUse a ∧ t.lock a = s.lock a)
    (hbound : ∀ i L, pc.bound = some (i, L) → t.inUse ⟨h, i⟩ = true ∧ t.lock ⟨h, i⟩ = some L) : t.Bound := by
  intro h' i' L hb
  rw [hpc] at hb
  by_cases hh : h' = h
  · subst hh
    rw [Function.update_self] at hb
    exact hbound i' L hb
  · obtain ⟨hu, hl⟩ := htable ⟨h', i'⟩ hh
    rw [Function.update_of_ne hh] at hb
    rw [hu, hl]
    exact B h' i' L hb

/-- A step that leaves the table alone. -/
theorem Bound.go_on (B : s.Bound) {pc : Pc H S Λ} (hpc : t.pc = Function.update s.pc h pc)
    (hu : t.inUse = s.inUse) (hl : t.lock = s.lock)
    (hbound : ∀ i L, pc.bound = some (i, L) → s.inUse ⟨h, i⟩ = true ∧ s.lock ⟨h, i⟩ = some L) :
    t.Bound := by
  refine B.of_own hpc (fun a _ => ⟨by rw [hu], by rw [hl]⟩) ?_
  rw [hu, hl]
  exact hbound

/-- A call that goes on keeps its slot bound. -/
theorem Bound.keep (B : s.Bound) {pc : Pc H S Λ} (hpc : t.pc = Function.update s.pc h pc)
    (hu : t.inUse = s.inUse) (hl : t.lock = s.lock)
    (hbound : ∀ x, pc.bound = some x → (s.pc h).bound = some x) : t.Bound :=
  B.go_on hpc hu hl (fun i L hb => B h i L (hbound (i, L) hb))

section Steps

variable [DecidableEq Λ]

/-- The slot found for a lock is bound to it. -/
theorem bound_of_boundSlot {L : Λ} (h' : s.boundSlot h L = some i) :
    s.inUse ⟨h, i⟩ = true ∧ s.lock ⟨h, i⟩ = some L := by
  have hp := List.find?_some h'
  rw [Bool.and_eq_true, Bool.and_eq_true, decide_eq_true_eq, decide_eq_true_eq] at hp
  exact hp.2

theorem bound_step (B : s.Bound) (h : Fin H) (call : Call Λ) : (s.step h call).Bound := by
  unfold step
  cases hpc : s.pc h with
  | idle =>
    dsimp only
    refine B.keep rfl rfl rfl (fun x hb => ?_)
    cases call <;> cases hb
  | bind _ _ =>
    dsimp only
    split
    · rename_i i hi
      refine B.of_own rfl (fun a ha => ?_) (fun i' L' hb => ?_)
      · have hne : a ≠ ⟨h, i⟩ := fun heq => ha (congrArg Node.hart heq)
        exact ⟨Function.update_of_ne hne .., Function.update_of_ne hne ..⟩
      · cases hb
        exact ⟨Function.update_self .., Function.update_self ..⟩
    · exact B
  | bindNext _ _ _ =>
    exact B.keep rfl rfl rfl (fun x hb => by rw [hpc]; exact hb)
  | bindLocked _ _ _ =>
    exact B.keep rfl rfl rfl (fun x hb => by rw [hpc]; exact hb)
  | clearNext isTry _ _ =>
    refine B.keep rfl rfl rfl (fun x hb => ?_)
    rw [hpc]
    cases isTry
    · exact hb
    · exact hb
  | clearLocked _ _ =>
    exact B.keep rfl rfl rfl (fun x hb => by rw [hpc]; exact hb)
  | compareExchange _ _ =>
    dsimp only
    split
    · exact B.keep rfl rfl rfl (fun _ hb => nomatch hb)
    · exact B.keep rfl rfl rfl (fun _ hb => nomatch hb)
  | exchange _ _ =>
    dsimp only
    split
    · exact B.keep rfl rfl rfl (fun _ hb => nomatch hb)
    · exact B.keep rfl rfl rfl (fun x hb => by rw [hpc]; exact hb)
  | setLocked _ _ _ =>
    exact B.keep rfl rfl rfl (fun x hb => by rw [hpc]; exact hb)
  | link _ _ _ =>
    exact B.keep rfl rfl rfl (fun x hb => by rw [hpc]; exact hb)
  | spin _ _ =>
    dsimp only
    split
    · exact B
    · exact B.keep rfl rfl rfl (fun _ hb => nomatch hb)
  | find _ =>
    dsimp only
    split
    · rename_i i hi
      refine B.go_on rfl rfl rfl (fun i' L' hb => ?_)
      cases hb
      exact bound_of_boundSlot hi
    · exact B.keep rfl rfl rfl (fun _ hb => nomatch hb)
  | load _ _ =>
    dsimp only
    split
    · exact B.keep rfl rfl rfl (fun x hb => by rw [hpc]; exact hb)
    · exact B.keep rfl rfl rfl (fun x hb => by rw [hpc]; exact hb)
  | closeTail _ _ =>
    dsimp only
    split
    · exact B.keep rfl rfl rfl (fun _ hb => nomatch hb)
    · exact B.keep rfl rfl rfl (fun x hb => by rw [hpc]; exact hb)
  | await _ _ =>
    dsimp only
    split
    · exact B.keep rfl rfl rfl (fun x hb => by rw [hpc]; exact hb)
    · exact B
  | handoff _ _ _ =>
    exact B.keep rfl rfl rfl (fun _ hb => nomatch hb)
  | unbind i =>
    refine B.of_own rfl (fun a ha => ?_) (fun _ _ hb => nomatch hb)
    have hne : a ≠ ⟨h, i⟩ := fun heq => ha (congrArg Node.hart heq)
    exact ⟨Function.update_of_ne hne .., Function.update_of_ne hne ..⟩

/-! ## Every step is one of the protocol -/

theorem step_of_roleOf {f : Node H S → Role (Node H S) Λ} {q : Λ → List (Node H S)}
    {a : State (Node H S) Λ} (hrole : t.roleOf = f)
    (h : Step a ⟨f, t.tail, t.next, t.locked, q, t.arrivals, t.grants, t.released⟩) :
    Step a (t.view q) := by
  rw [view_of_roleOf hrole]
  exact h

/-- **The simulation.** -/
theorem view_step (B : s.Bound) (h : Fin H) (call : Call Λ) (q : Λ → List (Node H S)) :
    ∃ q', (s.step h call).view q' = s.view q ∨ Step (s.view q) ((s.step h call).view q') := by
  unfold step
  cases hpc : s.pc h with
  | idle =>
    dsimp only
    refine ⟨q, Or.inl ?_⟩
    exact view_of_roleOf
      (roleOf_of_none rfl (by rw [hpc]; rfl) (by cases call <;> rfl) rfl rfl)
  | bind isTry L =>
    dsimp only
    split
    · rename_i i hi
      refine ⟨q, Or.inl ?_⟩
      have hfree := restRole_of_free (inUse_of_freeSlot hi)
      have hrest : s.roleOf ⟨h, i⟩ = .out := (roleOf_of_rest (by rw [hpc]; rfl)).trans hfree
      refine view_of_roleOf (f := s.roleOf) ?_
      · rw [roleOf_eq_update (s := s) (h := h) (i := i) (a := .bindNext isTry L i) (r := .out) rfl,
          ← hrest, Function.update_eq_self]
        · intro x hx
          rw [hpc] at hx
          cases hx
        · rintro x ⟨⟩
          rfl
        · intro b hb
          exact ⟨Function.update_of_ne hb .., Function.update_of_ne hb ..⟩
        · exact roleOf_of_work (by simp only [setPc, Function.update_self]; rfl)
    · exact ⟨q, Or.inl rfl⟩
  | bindNext _ _ i =>
    refine ⟨q, Or.inr ?_⟩
    have hw : (s.pc h).work = some (i, .out) := by rw [hpc]; rfl
    exact step_of_roleOf (roleOf_keep hw rfl rfl rfl rfl)
      (Step.clearNext (s := s.view q) ⟨h, i⟩ (congrArg Role.queued (roleOf_of_work hw)))
  | bindLocked _ _ i =>
    refine ⟨q, Or.inr ?_⟩
    have hw : (s.pc h).work = some (i, .out) := by rw [hpc]; rfl
    exact step_of_roleOf (roleOf_keep hw rfl rfl rfl rfl)
      (Step.clearLocked (s := s.view q) ⟨h, i⟩ (congrArg Role.queued (roleOf_of_work hw)))
  | clearNext isTry L i =>
    refine ⟨q, Or.inr ?_⟩
    have hw : (s.pc h).work = some (i, .out) := by rw [hpc]; rfl
    exact step_of_roleOf (roleOf_go_on (r := .ready L) hw (by cases isTry <;> rfl) rfl rfl rfl)
      (Step.prepare (s := s.view q) ⟨h, i⟩ L (roleOf_of_work hw))
  | clearLocked L i =>
    refine ⟨q, Or.inr ?_⟩
    have hw : (s.pc h).work = some (i, .ready L) := by rw [hpc]; rfl
    exact step_of_roleOf (roleOf_keep hw rfl rfl rfl rfl)
      (Step.clearLocked (s := s.view q) ⟨h, i⟩ (congrArg Role.queued (roleOf_of_work hw)))
  | compareExchange L i =>
    dsimp only
    have hw : (s.pc h).work = some (i, .ready L) := by rw [hpc]; rfl
    split
    · rename_i htail
      refine ⟨Function.update q L (q L ++ [⟨h, i⟩]), Or.inr ?_⟩
      exact step_of_roleOf (roleOf_return hw (B h i L (by rw [hpc]; rfl)) rfl rfl rfl)
        (Step.enter (s := s.view q) ⟨h, i⟩ L (roleOf_of_work hw) htail)
    · refine ⟨q, Or.inr ?_⟩
      exact step_of_roleOf (roleOf_go_on (r := .out) hw rfl rfl rfl rfl)
        (Step.giveUp (s := s.view q) ⟨h, i⟩ L (roleOf_of_work hw))
  | exchange L i =>
    dsimp only
    have hw : (s.pc h).work = some (i, .ready L) := by rw [hpc]; rfl
    split
    · rename_i htail
      refine ⟨Function.update q L (q L ++ [⟨h, i⟩]), Or.inr ?_⟩
      exact step_of_roleOf (roleOf_return hw (B h i L (by rw [hpc]; rfl)) rfl rfl rfl)
        (Step.enter (s := s.view q) ⟨h, i⟩ L (roleOf_of_work hw) htail)
    · rename_i pred htail
      refine ⟨Function.update q L (q L ++ [⟨h, i⟩]), Or.inr ?_⟩
      exact step_of_roleOf (roleOf_go_on (r := .setLocked L pred) hw rfl rfl rfl rfl)
        (Step.exchange (s := s.view q) ⟨h, i⟩ L pred (roleOf_of_work hw) htail)
  | setLocked L i pred =>
    refine ⟨q, Or.inr ?_⟩
    have hw : (s.pc h).work = some (i, .setLocked L pred) := by rw [hpc]; rfl
    exact step_of_roleOf (roleOf_go_on (r := .link L pred) hw rfl rfl rfl rfl)
      (Step.setLocked (s := s.view q) ⟨h, i⟩ L pred (roleOf_of_work hw))
  | link L i pred =>
    refine ⟨q, Or.inr ?_⟩
    have hw : (s.pc h).work = some (i, .link L pred) := by rw [hpc]; rfl
    exact step_of_roleOf (roleOf_go_on (r := .spin L) hw rfl rfl rfl rfl)
      (Step.link (s := s.view q) ⟨h, i⟩ L pred (roleOf_of_work hw))
  | spin L i =>
    dsimp only
    have hw : (s.pc h).work = some (i, .spin L) := by rw [hpc]; rfl
    split
    · exact ⟨q, Or.inl rfl⟩
    · rename_i hlocked
      refine ⟨q, Or.inr ?_⟩
      exact step_of_roleOf (roleOf_return hw (B h i L (by rw [hpc]; rfl)) rfl rfl rfl)
        (Step.obtain (s := s.view q) ⟨h, i⟩ L (roleOf_of_work hw)
        (Bool.eq_false_of_not_eq_true hlocked))
  | find L =>
    dsimp only
    have hw : (s.pc h).work = none := by rw [hpc]; rfl
    split
    · rename_i i hi
      obtain ⟨hu, hl⟩ := bound_of_boundSlot hi
      refine ⟨q, Or.inr ?_⟩
      exact step_of_roleOf (roleOf_find (r := .load L) hw rfl rfl rfl rfl)
        (Step.release (s := s.view q) ⟨h, i⟩ L ((roleOf_of_rest hw).trans (restRole_of_bound hu hl)))
    · refine ⟨q, Or.inl ?_⟩
      exact view_of_roleOf (roleOf_of_none rfl hw rfl rfl rfl)
  | load L i =>
    dsimp only
    have hw : (s.pc h).work = some (i, .load L) := by rw [hpc]; rfl
    split
    · rename_i succ hnext
      refine ⟨q, Or.inr ?_⟩
      exact step_of_roleOf (roleOf_go_on (r := .handoff L succ) hw rfl rfl rfl rfl)
        (Step.look (s := s.view q) ⟨h, i⟩ L succ (Or.inl (roleOf_of_work hw)) hnext)
    · refine ⟨q, Or.inr ?_⟩
      exact step_of_roleOf (roleOf_go_on (r := .cas L) hw rfl rfl rfl rfl)
        (Step.miss (s := s.view q) ⟨h, i⟩ L (roleOf_of_work hw))
  | closeTail L i =>
    dsimp only
    have hw : (s.pc h).work = some (i, .cas L) := by rw [hpc]; rfl
    split
    · rename_i htail
      refine ⟨Function.update q L (q L).tail, Or.inr ?_⟩
      exact step_of_roleOf (roleOf_go_on (r := .out) hw rfl rfl rfl rfl)
        (Step.close (s := s.view q) ⟨h, i⟩ L (roleOf_of_work hw) htail)
    · rename_i htail
      refine ⟨q, Or.inr ?_⟩
      exact step_of_roleOf (roleOf_go_on (r := .wait L) hw rfl rfl rfl rfl)
        (Step.raced (s := s.view q) ⟨h, i⟩ L (roleOf_of_work hw) htail)
  | await L i =>
    dsimp only
    have hw : (s.pc h).work = some (i, .wait L) := by rw [hpc]; rfl
    split
    · rename_i succ hnext
      refine ⟨q, Or.inr ?_⟩
      exact step_of_roleOf (roleOf_go_on (r := .handoff L succ) hw rfl rfl rfl rfl)
        (Step.look (s := s.view q) ⟨h, i⟩ L succ (Or.inr (roleOf_of_work hw)) hnext)
    · exact ⟨q, Or.inl rfl⟩
  | handoff L i succ =>
    have hw : (s.pc h).work = some (i, .handoff L succ) := by rw [hpc]; rfl
    refine ⟨Function.update q L (q L).tail, Or.inr ?_⟩
    exact step_of_roleOf (roleOf_go_on (r := .out) hw rfl rfl rfl rfl)
      (Step.pass (s := s.view q) ⟨h, i⟩ L succ (roleOf_of_work hw))
  | unbind i =>
    have hw : (s.pc h).work = some (i, .out) := by rw [hpc]; rfl
    refine ⟨q, Or.inl ?_⟩
    refine view_of_roleOf (f := s.roleOf) ?_
    · rw [roleOf_eq_update (s := s) (h := h) (i := i) (a := .idle) (r := .out) rfl,
        ← roleOf_of_work hw, Function.update_eq_self]
      · intro x hx
        rw [hw] at hx
        cases hx
        rfl
      · rintro x ⟨⟩
      · intro b hb
        exact ⟨Function.update_of_ne hb .., Function.update_of_ne hb ..⟩
      · rw [roleOf_of_rest (by simp only [setPc, Function.update_self]; rfl)]
        exact restRole_of_free (Function.update_self ..)

/-! ## Runs -/

theorem inv_run (xs : List (Fin H × Call Λ)) :
    ((machine H S Λ).run xs).Bound ∧ ∃ q, Inv (((machine H S Λ).run xs).view q) := by
  refine Machine.invariant_of_next (M := machine H S Λ)
    (P := fun s => s.Bound ∧ ∃ q, Inv (s.view q)) ?_ ?_ xs
  · refine ⟨fun _ _ _ hb => (nomatch hb), fun _ => [], ?_⟩
    exact inv_init (fun _ => rfl) (fun _ => rfl) (fun _ => rfl) (fun _ => rfl) (fun _ => rfl)
      (fun _ => rfl)
  · rintro s ⟨h, call⟩ ⟨B, q, I⟩
    refine ⟨bound_step B h call, ?_⟩
    obtain ⟨q', hq | hq⟩ := view_step B h call q
    · exact ⟨q', hq ▸ I⟩
    · exact ⟨q', I.step hq⟩

end Steps

/-- **The MCS lock is correct.**  For every number of harts, slots and locks, every sequence of calls of each
hart and every interleaving of their steps, each lock has one holder at most, is obtained in the order of the
tail exchanges, and leaves no waiter without a hand-over. -/
theorem mcs_lock_correct (H S : Nat) {Λ : Type} [DecidableEq Λ] (xs : List (Fin H × Call Λ)) (L : Λ) :
    LockSafe ((machine H S Λ).run xs) L := by
  obtain ⟨-, q, I⟩ := inv_run (S := S) xs
  have A := I.lock L
  constructor
  · exact A.holder
  · exact A.fifo
  · rintro ⟨b, hb⟩ hnone
    obtain ⟨c, hc, hheld | ⟨hspin, hlocked⟩⟩ := A.handed hb.queued
    · have hq := (A.mem_iff c).mp (List.mem_of_getElem? hc)
      exact absurd ⟨hq, hheld⟩ (hnone c)
    · refine ⟨c, A.next_arrival hc (by rw [hspin]; rfl), pc_of_spin hspin, hlocked⟩
  · intro h i hpc
    have hrole : ((machine H S Λ).run xs).roleOf ⟨h, i⟩ = .wait L := roleOf_of_work (by rw [hpc]; rfl)
    obtain ⟨c, hq, hnext | hpred⟩ := A.linked hrole
    · exact ⟨c, Or.inl hnext⟩
    · exact ⟨c, Or.inr (pc_of_pred hq hpred)⟩
  · intro htail b
    have hempty := A.empty_of_tail htail
    have hnot : ¬ (((machine H S Λ).run xs).roleOf b).queued = some L := by
      intro hq
      have hmem := (A.mem_iff b).mpr hq
      rw [hempty] at hmem
      cases hmem
    exact ⟨fun hheld => hnot hheld.1, fun hw => hnot hw.queued⟩

/-- Hart 1 queues up behind hart 0, which hands the lock over. -/
example :
    let s := (machine 2 2 Unit).run (List.replicate 6 (0, .acquire ()) ++ List.replicate 9 (1, .acquire ()) ++
      List.replicate 5 (0, .release ()) ++ [(1, .acquire ())])
    s.arrivals () = [⟨0, 0⟩, ⟨1, 1⟩] ∧ s.grants () = [⟨0, 0⟩, ⟨1, 1⟩] ∧ s.released () = [⟨0, 0⟩] := by
  decide

end Sys

end Mcs

end CachePool
