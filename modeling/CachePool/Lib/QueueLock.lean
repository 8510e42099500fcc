import Mathlib.Data.List.Basic
import Mathlib.Logic.Function.Basic
import Mathlib.Tactic

/-!
# Queue locks

Nodes queue up for locks.  Each lock has a tail pointer, each node a `next` pointer and a `locked` flag on
which its owner waits.  A node enters by exchanging the tail, links itself behind its predecessor, and waits;
the holder hands the lock to its successor, or swings the tail back when it has none.

* `Role`, `State`, `Step` — what a node is doing, the shared variables with the history of each lock, and
  the steps of the protocol, over any nodes and any locks.
* `At` — the invariant of one lock: the tail, the `next` pointers and the `locked` flags describe a queue;
  `At.frame` is the rule for what does not touch the lock.
* `Inv.at_lock` — a step at one lock concerns no other; `Inv.step` — every step keeps the invariant of every
  lock.
* `At.holder`, `At.fifo`, `At.handed`, `At.linked` — one holder, grants in the order of arrival, no node waits
  for a lock that nobody holds and nobody has been handed, and no holder waits for a successor that does not
  link itself.
-/

set_option autoImplicit false

universe u v w

namespace QueueLock

variable {N : Type u} {Λ : Type v}

/-- What a node is doing. -/
inductive Role (N : Type u) (Λ : Type v) where
  /-- in no queue -/
  | out
  /-- about to enter the queue, with `next` cleared -/
  | ready (l : Λ)
  /-- has entered behind `p`, before it sets `locked` -/
  | setLocked (l : Λ) (p : N)
  /-- before it sets `next` of `p` -/
  | link (l : Λ) (p : N)
  | spin (l : Λ)
  | held (l : Λ)
  /-- about to give up the lock: before the load of `next` -/
  | load (l : Λ)
  /-- before the attempt to swing the tail back -/
  | cas (l : Λ)
  /-- waiting for `next` -/
  | wait (l : Λ)
  /-- before it clears `locked` of `n` -/
  | handoff (l : Λ) (n : N)
  deriving DecidableEq

/-- The lock in whose queue the node is. -/
def Role.queued : Role N Λ → Option Λ
  | .out => none
  | .ready _ => none
  | .setLocked l _ => some l
  | .link l _ => some l
  | .spin l => some l
  | .held l => some l
  | .load l => some l
  | .cas l => some l
  | .wait l => some l
  | .handoff l _ => some l

/-- The predecessor to which the node has still to link itself. -/
def Role.pred : Role N Λ → Option N
  | .setLocked _ p => some p
  | .link _ p => some p
  | _ => none

/-- The node has entered and not obtained the lock. -/
def Role.waiting : Role N Λ → Bool
  | .setLocked _ _ => true
  | .link _ _ => true
  | .spin _ => true
  | _ => false

/-- The node has set `locked` and waits for it to be cleared. -/
def Role.armed : Role N Λ → Bool
  | .link _ _ => true
  | .spin _ => true
  | _ => false

/-- Shared variables, and the history of each lock. -/
structure State (N : Type u) (Λ : Type v) where
  role : N → Role N Λ
  tail : Λ → Option N
  next : N → Option N
  locked : N → Bool
  /-- the nodes that have entered and not given up the lock, in order -/
  queue : Λ → List N
  arrivals : Λ → List N
  grants : Λ → List N
  released : Λ → List N

/-! ## The invariant of one lock -/

/-- **The invariant of lock `l`.** -/
structure At (s : State N Λ) (l : Λ) : Prop where
  nodup : (s.queue l).Nodup
  mem_iff : ∀ b, b ∈ s.queue l ↔ (s.role b).queued = some l
  tail_eq : s.tail l = (s.queue l).getLast?
  /-- a node's `next` is its successor, once that has linked itself -/
  links : ∀ k p, (s.queue l)[k]? = some p →
    s.next p = ((s.queue l)[k + 1]?).filter fun b => (s.role b).pred.isNone
  /-- a node that has still to link itself does so behind its predecessor -/
  preds : ∀ b p, (s.role b).queued = some l → (s.role b).pred = some p →
    ∃ k, (s.queue l)[k]? = some p ∧ (s.queue l)[k + 1]? = some b
  /-- a first node that waits has been handed the lock -/
  head : ∀ b, (s.queue l)[0]? = some b → (s.role b).waiting = true →
    (s.role b).pred = none ∧ s.locked b = false
  /-- all others wait, and none of them passes -/
  rest : ∀ k b, (s.queue l)[k + 1]? = some b →
    (s.role b).waiting = true ∧ ((s.role b).armed = true → s.locked b = true)
  succ : ∀ b n, s.role b = .handoff l n → s.next b = some n
  raced : ∀ b, s.role b = .wait l → s.tail l ≠ some b
  arrived : s.arrivals l = s.grants l ++ (s.queue l).filter fun b => (s.role b).waiting
  granted : s.grants l = s.released l ++ (s.queue l).filter fun b => !(s.role b).waiting

/-- The invariant of all locks; a node about to enter has a cleared `next`. -/
structure Inv (s : State N Λ) : Prop where
  lock : ∀ l, At s l
  ready : ∀ b l, s.role b = .ready l → s.next b = none

variable {s t : State N Λ} {l : Λ} {b n p : N}

/-! ## Reading the invariant -/

/-- A node that is queued and does not wait is the first. -/
theorem At.holder_head (I : At s l) (hq : (s.role b).queued = some l)
    (hw : (s.role b).waiting = false) : (s.queue l)[0]? = some b := by
  obtain ⟨k, hk⟩ := List.getElem?_of_mem ((I.mem_iff b).mpr hq)
  cases k with
  | zero => exact hk
  | succ k =>
    rw [(I.rest k b hk).1] at hw
    cases hw

/-- A node that waits with its flag cleared is the first. -/
theorem At.obtain_head (I : At s l) (hb : s.role b = .spin l) (hlocked : s.locked b = false) :
    (s.queue l)[0]? = some b := by
  obtain ⟨k, hk⟩ := List.getElem?_of_mem ((I.mem_iff b).mpr (by rw [hb]; rfl))
  cases k with
  | zero => exact hk
  | succ k =>
    rw [(I.rest k b hk).2 (by rw [hb]; rfl)] at hlocked
    cases hlocked

/-- The queue from its first node on. -/
theorem queue_eq_cons {q : List N} (h : q[0]? = some b) : q = b :: q.tail := by
  cases q with
  | nil => cases h
  | cons c q =>
    cases h
    rfl

/-- Behind the first node all wait. -/
theorem At.waiting_of_mem_tail (I : At s l) (h : b ∈ (s.queue l).tail) :
    (s.role b).waiting = true := by
  obtain ⟨k, hk⟩ := List.getElem?_of_mem h
  rw [List.getElem?_tail] at hk
  exact (I.rest k b hk).1

theorem At.filter_tail (I : At s l) :
    (s.queue l).tail.filter (fun b => (s.role b).waiting) = (s.queue l).tail ∧
    (s.queue l).tail.filter (fun b => !(s.role b).waiting) = [] := by
  refine ⟨List.filter_eq_self.mpr (fun b hb => I.waiting_of_mem_tail hb), ?_⟩
  refine List.filter_eq_nil_iff.mpr (fun b hb => ?_)
  rw [I.waiting_of_mem_tail hb]
  exact Bool.false_ne_true

/-- **First come, first served.** -/
theorem At.fifo (I : At s l) : s.grants l <+: s.arrivals l := ⟨_, I.arrived.symm⟩

/-- **No node waits in vain.**  The first node of the queue holds the lock, is giving it up, or has been
handed it. -/
theorem At.handed (I : At s l) (h : (s.role b).queued = some l) :
    ∃ c, (s.queue l)[0]? = some c ∧ ((s.role c).waiting = false ∨
      s.role c = .spin l ∧ s.locked c = false) := by
  obtain ⟨c, hc⟩ : ∃ c, (s.queue l)[0]? = some c := by
    cases hq : s.queue l with
    | nil =>
      have hmem := (I.mem_iff b).mpr h
      rw [hq] at hmem
      cases hmem
    | cons c q => exact ⟨c, rfl⟩
  refine ⟨c, hc, ?_⟩
  cases hw : (s.role c).waiting
  · exact Or.inl rfl
  · right
    obtain ⟨hpred, hlocked⟩ := I.head c hc hw
    have hqueued := (I.mem_iff c).mp (List.mem_of_getElem? hc)
    refine ⟨?_, hlocked⟩
    cases hr : s.role c <;> simp_all [Role.waiting, Role.pred, Role.queued]

/-- **One holder.**  Grants and releases alternate, and the node of the grant outstanding is the one that has
got beyond waiting. -/
theorem At.holder (I : At s l) : ∃ o : Option N, s.grants l = s.released l ++ o.toList ∧
    ∀ b, o = some b ↔ (s.role b).queued = some l ∧ (s.role b).waiting = false := by
  have hg := I.granted
  have hhead : ∀ b, (s.role b).queued = some l ∧ (s.role b).waiting = false →
      (s.queue l)[0]? = some b := fun b hb => I.holder_head hb.1 hb.2
  cases hq : s.queue l with
  | nil =>
    rw [hq] at hg hhead
    refine ⟨none, hg, fun b => ⟨(fun h => nomatch h), fun hb => ?_⟩⟩
    cases hhead b hb
  | cons c q =>
    have htail := I.filter_tail.2
    rw [hq, List.tail_cons] at htail
    have hmem := (I.mem_iff c).mp (by rw [hq]; exact List.mem_cons_self)
    rw [hq, List.filter_cons, htail] at hg
    rw [hq] at hhead
    cases hw : (s.role c).waiting
    · rw [hw] at hg
      refine ⟨some c, hg, fun b => ⟨?_, fun hb => hhead b hb⟩⟩
      rintro ⟨⟩
      exact ⟨hmem, hw⟩
    · rw [hw] at hg
      refine ⟨none, hg, fun b => ⟨(fun h => nomatch h), fun hb => ?_⟩⟩
      cases hhead b hb
      rw [hw] at hb
      cases hb.2

/-- The node to be served next is the first of those that wait. -/
theorem At.next_arrival (I : At s l) (hc : (s.queue l)[0]? = some b)
    (hw : (s.role b).waiting = true) : (s.arrivals l)[(s.grants l).length]? = some b := by
  rw [I.arrived, List.getElem?_append_right (Nat.le_refl _), Nat.sub_self, queue_eq_cons hc,
    List.filter_cons, if_pos hw]
  rfl

/-- A node that waits for its successor has one, which has linked itself or is about to. -/
theorem At.linked (I : At s l) (h : s.role b = .wait l) :
    ∃ n, (s.role n).queued = some l ∧ (s.next b = some n ∨ (s.role n).pred = some b) := by
  have h0 := I.holder_head (b := b) (by rw [h]; rfl) (by rw [h]; rfl)
  have hraced := I.raced b h
  rw [I.tail_eq, queue_eq_cons h0] at hraced
  cases hq : (s.queue l).tail with
  | nil =>
    rw [hq] at hraced
    exact absurd rfl hraced
  | cons n q =>
    have h1 : (s.queue l)[1]? = some n := by
      rw [← List.getElem?_tail, hq]
      rfl
    have hnq := (I.mem_iff n).mp (List.mem_of_getElem? h1)
    refine ⟨n, hnq, ?_⟩
    cases hp : (s.role n).pred with
    | none =>
      left
      rw [I.links 0 b h0, h1, Option.filter_some, hp]
      rfl
    | some p =>
      right
      obtain ⟨k, hkp, hkn⟩ := I.preds n p hnq hp
      have hk := (List.getElem?_inj (List.getElem?_eq_some_iff.mp hkn).1 I.nodup).mp (hkn.trans h1.symm)
      obtain rfl : k = 0 := by omega
      rw [h0] at hkp
      exact hkp.symm

/-- A lock without a tail has no queue. -/
theorem At.empty_of_tail (I : At s l) (h : s.tail l = none) : s.queue l = [] := by
  rw [I.tail_eq] at h
  exact List.getLast?_eq_none_iff.mp h

/-- With empty queues and all nodes out, the invariant holds. -/
theorem inv_init (hrole : ∀ b, s.role b = .out) (htail : ∀ l, s.tail l = none)
    (hqueue : ∀ l, s.queue l = []) (harrivals : ∀ l, s.arrivals l = []) (hgrants : ∀ l, s.grants l = [])
    (hreleased : ∀ l, s.released l = []) : Inv s where
  lock := by
    intro l
    constructor <;> simp [hrole, htail, hqueue, harrivals, hgrants, hreleased, Role.queued]
  ready := by
    intro b l h
    rw [hrole] at h
    cases h

theorem queued_unique {r : Role N Λ} (h : r.queued = some l) (l' : Λ) (h' : r.queued = some l') :
    l' = l :=
  Option.some.inj (h'.symm.trans h)

/-- A node that has still to set its flag has a predecessor, so that it is not the first. -/
theorem At.not_head_of_pred (I : At s l) (hq : (s.role b).queued = some l)
    (hp : (s.role b).pred = some p) : (s.queue l)[0]? ≠ some b := by
  obtain ⟨k, -, hk⟩ := I.preds b p hq hp
  intro h0
  have hinj := (List.getElem?_inj (List.getElem?_eq_some_iff.mp h0).1 I.nodup).mp (h0.trans hk.symm)
  omega

/-- A node that swings the tail back is alone in its queue. -/
theorem At.queue_of_tail (I : At s l) (hb : s.role b = .cas l) (htail : s.tail l = some b) :
    s.queue l = [b] := by
  have h0 := I.holder_head (b := b) (by rw [hb]; rfl) (by rw [hb]; rfl)
  have hlast := htail
  rw [I.tail_eq, List.getLast?_eq_getElem?] at hlast
  have hinj := (List.getElem?_inj (List.getElem?_eq_some_iff.mp h0).1 I.nodup).mp
    (h0.trans hlast.symm)
  have hlen : (s.queue l).tail.length = 0 := by
    rw [List.length_tail]
    omega
  rw [queue_eq_cons h0, List.length_eq_zero_iff.mp hlen]

/-- A node that hands the lock on does so to the next node of the queue, which has linked itself. -/
theorem At.successor (I : At s l) (hb : s.role b = .handoff l n) :
    (s.queue l)[1]? = some n ∧ (s.role n).pred = none := by
  have hnext := I.succ b n hb
  rw [I.links 0 b (I.holder_head (by rw [hb]; rfl) (by rw [hb]; rfl)), Option.filter_eq_some_iff,
    Option.isNone_iff_eq_none] at hnext
  exact hnext

/-! ## What does not touch the lock -/

/-- Tail, queue and history of lock `l` are the same in both states. -/
structure SameAt (s t : State N Λ) (l : Λ) : Prop where
  queue : t.queue l = s.queue l
  tail : t.tail l = s.tail l
  arrivals : t.arrivals l = s.arrivals l
  grants : t.grants l = s.grants l
  released : t.released l = s.released l

/-- **The frame rule.**  The invariant of a lock depends on its tail, its history and its nodes. -/
theorem At.frame (I : At s l) (hsame : SameAt s t l)
    (hmem : ∀ c, (t.role c).queued = some l ↔ (s.role c).queued = some l)
    (hnode : ∀ c, (s.role c).queued = some l →
      t.role c = s.role c ∧ t.next c = s.next c ∧ t.locked c = s.locked c) : At t l := by
  obtain ⟨hqueue, htail, harrivals, hgrants, hreleased⟩ := hsame
  have hin : ∀ c ∈ s.queue l, t.role c = s.role c := fun c hc => (hnode c ((I.mem_iff c).mp hc)).1
  have hof : ∀ k c, (s.queue l)[k]? = some c → t.role c = s.role c ∧ t.next c = s.next c ∧
      t.locked c = s.locked c := fun k c hk => hnode c ((I.mem_iff c).mp (List.mem_of_getElem? hk))
  constructor
  case nodup =>
    rw [hqueue]
    exact I.nodup
  case mem_iff =>
    intro c
    rw [hqueue, hmem]
    exact I.mem_iff c
  case tail_eq =>
    rw [htail, hqueue]
    exact I.tail_eq
  case links =>
    rw [hqueue]
    intro k p hk
    rw [(hof k p hk).2.1, I.links k p hk]
    cases hn : (s.queue l)[k + 1]? with
    | none => rfl
    | some c => simp only [Option.filter_some, (hof (k + 1) c hn).1]
  case preds =>
    rw [hqueue]
    intro c p hq hp
    rw [hmem] at hq
    rw [(hnode c hq).1] at hp
    exact I.preds c p hq hp
  case head =>
    rw [hqueue]
    intro c hc hw
    obtain ⟨hr, -, hl⟩ := hof 0 c hc
    rw [hr] at hw ⊢
    rw [hl]
    exact I.head c hc hw
  case rest =>
    rw [hqueue]
    intro k c hc
    obtain ⟨hr, -, hl⟩ := hof (k + 1) c hc
    rw [hr, hl]
    exact I.rest k c hc
  case succ =>
    intro c n hr
    have hq := (hmem c).mp (by rw [hr]; rfl)
    obtain ⟨hr', hn, -⟩ := hnode c hq
    rw [hn]
    exact I.succ c n (hr' ▸ hr)
  case raced =>
    intro c hr
    have hq := (hmem c).mp (by rw [hr]; rfl)
    rw [htail]
    exact I.raced c ((hnode c hq).1 ▸ hr)
  case arrived =>
    rw [hqueue, harrivals, hgrants, I.arrived]
    congr 1
    exact List.filter_congr (fun c hc => by rw [hin c hc])
  case granted =>
    rw [hqueue, hgrants, hreleased, I.granted]
    congr 1
    exact List.filter_congr (fun c hc => by rw [hin c hc])

theorem getElem?_concat_or {q : List N} {k : Nat} {c : N} (h : (q ++ [b])[k]? = some c) :
    q[k]? = some c ∨ (k = q.length ∧ c = b) := by
  rcases Nat.lt_or_ge k q.length with hlt | hge
  · rw [List.getElem?_append_left hlt] at h
    exact Or.inl h
  · have hk : k = q.length := by
      have := (List.getElem?_eq_some_iff.mp h).1
      rw [List.length_append, List.length_singleton] at this
      omega
    rw [hk, List.getElem?_concat_length] at h
    exact Or.inr ⟨hk, (Option.some.inj h).symm⟩

variable [DecidableEq N]

/-- A step of a node that is not queued on the lock, before or after. -/
theorem At.frame_update {r : Role N Λ} (I : At s l) (hsame : SameAt s t l)
    (hrole : t.role = Function.update s.role b r) (hb : (s.role b).queued ≠ some l)
    (hr : r.queued ≠ some l)
    (hnode : ∀ c, (s.role c).queued = some l → t.next c = s.next c ∧ t.locked c = s.locked c) :
    At t l := by
  refine I.frame hsame (fun c => ?_) (fun c hc => ?_)
  · rw [hrole]
    by_cases hcb : c = b
    · rw [hcb, Function.update_self]
      exact iff_of_false hr hb
    · rw [Function.update_of_ne hcb]
  · refine ⟨?_, hnode c hc⟩
    rw [hrole, Function.update_of_ne]
    rintro rfl
    exact hb hc

/-! ## Steps that leave the queues alone -/

/-- A value other than the new one is an old value of another node. -/
theorem of_update_eq {β : Type w} {f : N → β} {c : N} {y z : β} (h : Function.update f b y c = z)
    (hne : y ≠ z) : c ≠ b ∧ f c = z := by
  have hcb : c ≠ b := by
    rintro rfl
    rw [Function.update_self] at h
    exact hne h
  rw [Function.update_of_ne hcb] at h
  exact ⟨hcb, h⟩

theorem attr_update {β : Type w} (f : Role N Λ → β) (role : N → Role N Λ) {r : Role N Λ}
    (h : f r = f (role b)) (c : N) : f (Function.update role b r c) = f (role c) := by
  by_cases hcb : c = b
  · rw [hcb, Function.update_self, h]
  · rw [Function.update_of_ne hcb]

/-- A step from a role to one like it. -/
theorem At.same {r : Role N Λ} (I : At s l) (hq : r.queued = (s.role b).queued)
    (hp : r.pred = (s.role b).pred) (hw : r.waiting = (s.role b).waiting)
    (ha : r.armed = true → (s.role b).armed = true ∨ s.locked b = true)
    (hsucc : ∀ n, r = .handoff l n → s.next b = some n) (hraced : r = .wait l → s.tail l ≠ some b) :
    At { s with role := Function.update s.role b r } l := by
  have hqueued := attr_update Role.queued s.role hq
  have hpred := attr_update Role.pred s.role hp
  have hwaiting := attr_update Role.waiting s.role hw
  constructor
  case nodup =>
    exact I.nodup
  case mem_iff =>
    intro c
    rw [hqueued]
    exact I.mem_iff c
  case tail_eq =>
    exact I.tail_eq
  case links =>
    intro k c hk
    simp only [hpred]
    exact I.links k c hk
  case preds =>
    intro c q hcq hcp
    rw [hqueued] at hcq
    rw [hpred] at hcp
    exact I.preds c q hcq hcp
  case head =>
    intro c hc hcw
    rw [hwaiting] at hcw
    rw [hpred]
    exact I.head c hc hcw
  case rest =>
    intro k c hc
    obtain ⟨hcw, hlocked⟩ := I.rest k c hc
    rw [hwaiting]
    refine ⟨hcw, fun harmed => ?_⟩
    dsimp only at harmed
    by_cases hcb : c = b
    · rw [hcb] at harmed hlocked ⊢
      rw [Function.update_self] at harmed
      rcases ha harmed with hold | hset
      · exact hlocked hold
      · exact hset
    · rw [Function.update_of_ne hcb] at harmed
      exact hlocked harmed
  case succ =>
    intro c n hr
    dsimp only at hr
    by_cases hcb : c = b
    · rw [hcb, Function.update_self] at hr
      rw [hcb]
      exact hsucc n hr
    · rw [Function.update_of_ne hcb] at hr
      exact I.succ c n hr
  case raced =>
    intro c hr
    dsimp only at hr
    by_cases hcb : c = b
    · rw [hcb, Function.update_self] at hr
      rw [hcb]
      exact hraced hr
    · rw [Function.update_of_ne hcb] at hr
      exact I.raced c hr
  case arrived =>
    simp only [hwaiting]
    exact I.arrived
  case granted =>
    simp only [hwaiting]
    exact I.granted

/-- A node in no queue may clear its `next`. -/
theorem Inv.clearNext (I : Inv s) (hb : (s.role b).queued = none) :
    Inv { s with next := Function.update s.next b none } where
  lock := by
    intro l
    refine (I.lock l).frame ⟨rfl, rfl, rfl, rfl, rfl⟩ (fun _ => Iff.rfl) (fun c hc => ⟨rfl, ?_, rfl⟩)
    apply Function.update_of_ne
    rintro rfl
    rw [hb] at hc
    cases hc
  ready := by
    intro c l hc
    dsimp only
    by_cases hcb : c = b
    · rw [hcb, Function.update_self]
    · rw [Function.update_of_ne hcb]
      exact I.ready c l hc

/-- A node in no queue may clear its flag. -/
theorem Inv.clearLocked (I : Inv s) (hb : (s.role b).queued = none) :
    Inv { s with locked := Function.update s.locked b false } where
  lock := by
    intro l
    refine (I.lock l).frame ⟨rfl, rfl, rfl, rfl, rfl⟩ (fun _ => Iff.rfl) (fun c hc => ⟨rfl, rfl, ?_⟩)
    apply Function.update_of_ne
    rintro rfl
    rw [hb] at hc
    cases hc
  ready := I.ready

/-- A node sets its flag before it links itself. -/
theorem At.raise (I : At s l) (hb : s.role b = .setLocked l p) :
    At { s with locked := Function.update s.locked b true } l := by
  constructor
  case nodup =>
    exact I.nodup
  case mem_iff =>
    exact I.mem_iff
  case tail_eq =>
    exact I.tail_eq
  case links =>
    exact I.links
  case preds =>
    exact I.preds
  case head =>
    intro c hc hw
    have hcb : c ≠ b := by
      rintro rfl
      exact I.not_head_of_pred (p := p) (by rw [hb]; rfl) (by rw [hb]; rfl) hc
    dsimp only
    rw [Function.update_of_ne hcb]
    exact I.head c hc hw
  case rest =>
    intro k c hc
    obtain ⟨hw, hlocked⟩ := I.rest k c hc
    refine ⟨hw, fun harmed => ?_⟩
    dsimp only
    by_cases hcb : c = b
    · rw [hcb, Function.update_self]
    · rw [Function.update_of_ne hcb]
      exact hlocked harmed
  case succ =>
    exact I.succ
  case raced =>
    exact I.raced
  case arrived =>
    exact I.arrived
  case granted =>
    exact I.granted

/-- A node links itself behind its predecessor. -/
theorem At.link (I : At s l) (hb : s.role b = .link l p) :
    At { s with role := Function.update s.role b (.spin l)
                next := Function.update s.next p (some b) } l := by
  have hbq : (s.role b).queued = some l := by rw [hb]; rfl
  have hbp : (s.role b).pred = some p := by rw [hb]; rfl
  obtain ⟨k, hkp, hkb⟩ := I.preds b p hbq hbp
  have hqueued := attr_update Role.queued s.role (r := .spin l) (b := b) (by rw [hb]; rfl)
  have hwaiting := attr_update Role.waiting s.role (r := .spin l) (b := b) (by rw [hb]; rfl)
  constructor
  case nodup =>
    exact I.nodup
  case mem_iff =>
    intro c
    rw [hqueued]
    exact I.mem_iff c
  case tail_eq =>
    exact I.tail_eq
  case links =>
    intro j q hj
    dsimp only at hj ⊢
    by_cases hqp : q = p
    · subst hqp
      have hjk : j = k :=
        (List.getElem?_inj (List.getElem?_eq_some_iff.mp hj).1 I.nodup).mp (hj.trans hkp.symm)
      rw [hjk, hkb, Function.update_self]
      simp only [Option.filter_some, Function.update_self]
      rfl
    · rw [Function.update_of_ne hqp, I.links j q hj]
      cases hn : (s.queue l)[j + 1]? with
      | none => rfl
      | some c =>
        have hcb : c ≠ b := by
          rintro rfl
          have hjk := (List.getElem?_inj (List.getElem?_eq_some_iff.mp hn).1 I.nodup).mp
            (hn.trans hkb.symm)
          obtain rfl : j = k := by omega
          rw [hj] at hkp
          exact hqp (Option.some.inj hkp)
        simp only [Option.filter_some, Function.update_of_ne hcb]
  case preds =>
    intro c q hcq hcp
    dsimp only at hcq hcp
    by_cases hcb : c = b
    · rw [hcb, Function.update_self] at hcp
      cases hcp
    · rw [Function.update_of_ne hcb] at hcq hcp
      exact I.preds c q hcq hcp
  case head =>
    intro c hc hw
    dsimp only at hw ⊢
    have hcb : c ≠ b := by
      rintro rfl
      exact I.not_head_of_pred hbq hbp hc
    rw [Function.update_of_ne hcb] at hw ⊢
    exact I.head c hc hw
  case rest =>
    intro j c hc
    obtain ⟨hw, hlocked⟩ := I.rest j c hc
    rw [hwaiting]
    refine ⟨hw, fun harmed => ?_⟩
    dsimp only at harmed
    by_cases hcb : c = b
    · rw [hcb]
      rw [hcb, hb] at hlocked
      exact hlocked rfl
    · rw [Function.update_of_ne hcb] at harmed
      exact hlocked harmed
  case succ =>
    intro c n hr
    dsimp only at hr ⊢
    obtain ⟨hcb, hr⟩ := of_update_eq hr (by intro h; cases h)
    have hcp : c ≠ p := by
      rintro rfl
      have hn := I.succ c n hr
      rw [I.links k c hkp, hkb, Option.filter_some, hbp] at hn
      cases hn
    rw [Function.update_of_ne hcp]
    exact I.succ c n hr
  case raced =>
    intro c hr
    dsimp only at hr
    obtain ⟨hcb, hr⟩ := of_update_eq hr (by intro h; cases h)
    exact I.raced c hr
  case arrived =>
    simp only [hwaiting]
    exact I.arrived
  case granted =>
    simp only [hwaiting]
    exact I.granted

/-! ## Entering, obtaining and giving up -/

/-- A node enters at the end: it waits, and is to link itself, if there is a node before it. -/
theorem At.append {r : Role N Λ} (I : At s l) (hb : (s.role b).queued = none) (hnext : s.next b = none)
    (hq : r.queued = some l) (hp : r.pred = s.tail l) (hw : r.waiting = (s.tail l).isSome)
    (ha : r.armed = false) (hsucc : ∀ n, r ≠ .handoff l n) (hraced : r ≠ .wait l)
    (hrole : t.role = Function.update s.role b r) (hnext' : t.next = s.next)
    (hlocked : t.locked = s.locked) (htail : t.tail l = some b)
    (hqueue : t.queue l = s.queue l ++ [b]) (harrivals : t.arrivals l = s.arrivals l ++ [b])
    (hgrants : t.grants l = s.grants l ++ if r.waiting then [] else [b])
    (hreleased : t.released l = s.released l) : At t l := by
  have hnot : b ∉ s.queue l := by
    intro hmem
    rw [(I.mem_iff b).mp hmem] at hb
    cases hb
  have hne : ∀ (k : Nat) c, (s.queue l)[k]? = some c → c ≠ b := by
    rintro k c hk rfl
    exact hnot (List.mem_of_getElem? hk)
  -- what the queue has at its old positions and at its new one
  have hold : ∀ k, k < (s.queue l).length → (s.queue l ++ [b])[k]? = (s.queue l)[k]? := fun k hk =>
    List.getElem?_append_left hk
  have hnew : (s.queue l ++ [b])[(s.queue l).length]? = some b := List.getElem?_concat_length
  have hempty : s.queue l = [] ↔ r.waiting = false := by
    rw [hw, I.tail_eq, Option.isSome_eq_false_iff, Option.isNone_iff_eq_none,
      List.getLast?_eq_none_iff]
  have hfilter : ∀ f : Role N Λ → Bool,
      (s.queue l).filter (fun c => f (t.role c)) = (s.queue l).filter (fun c => f (s.role c)) := by
    intro f
    refine List.filter_congr (fun c hc => ?_)
    rw [hrole, Function.update_of_ne]
    rintro rfl
    exact hnot hc
  constructor
  case nodup =>
    rw [hqueue]
    exact (List.perm_append_singleton b _).nodup_iff.mpr (List.nodup_cons.mpr ⟨hnot, I.nodup⟩)
  case mem_iff =>
    intro c
    rw [hqueue, hrole, List.mem_append, List.mem_singleton, I.mem_iff]
    by_cases hcb : c = b
    · rw [hcb, Function.update_self]
      exact iff_of_true (Or.inr rfl) hq
    · rw [Function.update_of_ne hcb]
      exact or_iff_left hcb
  case tail_eq =>
    rw [htail, hqueue, List.getLast?_concat]
  case links =>
    rw [hqueue, hrole, hnext']
    intro k c hk
    rcases getElem?_concat_or hk with hk | ⟨rfl, rfl⟩
    · rw [I.links k c hk]
      have hlt : k + 1 ≤ (s.queue l).length := (List.getElem?_eq_some_iff.mp hk).1
      rcases Nat.eq_or_lt_of_le hlt with heq | hlt
      · -- the last node so far: the new one is to link itself behind it
        have hlast : s.tail l = some c := by
          rw [I.tail_eq, List.getLast?_eq_getElem?, ← heq]
          exact hk
        rw [heq, hnew, List.getElem?_eq_none (Nat.le_refl _)]
        simp only [Option.filter_none, Option.filter_some, Function.update_self, hp, hlast]
        rfl
      · rw [hold (k + 1) hlt]
        cases hn : (s.queue l)[k + 1]? with
        | none => rfl
        | some d => simp only [Option.filter_some, Function.update_of_ne (hne _ d hn)]
    · rw [List.getElem?_eq_none (by simp), hnext]
      rfl
  case preds =>
    rw [hqueue, hrole]
    intro c q hcq hcp
    by_cases hcb : c = b
    · rw [hcb, Function.update_self, hp, I.tail_eq, List.getLast?_eq_getElem?] at hcp
      have hlt := (List.getElem?_eq_some_iff.mp hcp).1
      refine ⟨(s.queue l).length - 1, ?_, ?_⟩
      · rw [hold _ hlt]
        exact hcp
      · rw [Nat.sub_add_cancel (by omega), hnew, hcb]
    · rw [Function.update_of_ne hcb] at hcq hcp
      obtain ⟨k, hkq, hkc⟩ := I.preds c q hcq hcp
      have hlt := (List.getElem?_eq_some_iff.mp hkc).1
      exact ⟨k, (hold k (by omega)).trans hkq, (hold _ hlt).trans hkc⟩
  case head =>
    rw [hqueue, hrole, hlocked]
    intro c hc hcw
    rcases getElem?_concat_or hc with hc | ⟨hlen, rfl⟩
    · rw [Function.update_of_ne (hne 0 c hc)] at hcw ⊢
      exact I.head c hc hcw
    · rw [Function.update_self, hempty.mp (List.length_eq_zero_iff.mp hlen.symm)] at hcw
      cases hcw
  case rest =>
    rw [hqueue, hrole, hlocked]
    intro k c hc
    rcases getElem?_concat_or hc with hc | ⟨hlen, rfl⟩
    · rw [Function.update_of_ne (hne _ c hc)]
      exact I.rest k c hc
    · rw [Function.update_self, ha]
      refine ⟨?_, fun h => nomatch h⟩
      cases hwr : r.waiting
      · rw [hempty.mpr hwr] at hlen
        cases hlen
      · rfl
  case succ =>
    rw [hrole, hnext']
    intro c n hr
    by_cases hcb : c = b
    · rw [hcb, Function.update_self] at hr
      exact absurd hr (hsucc n)
    · rw [Function.update_of_ne hcb] at hr
      exact I.succ c n hr
  case raced =>
    rw [hrole, htail]
    intro c hr hbc
    rw [← Option.some.inj hbc, Function.update_self] at hr
    exact hraced hr
  case arrived =>
    rw [hqueue, harrivals, hgrants, List.filter_append, hfilter Role.waiting, I.arrived,
      List.filter_singleton, hrole, Function.update_self]
    cases hwr : r.waiting
    · rw [hempty.mpr hwr]
      simp
    · simp
  case granted =>
    rw [hqueue, hgrants, hreleased, List.filter_append, hfilter (fun r => !r.waiting), I.granted,
      List.filter_singleton, hrole, Function.update_self]
    cases hwr : r.waiting
    · rw [hempty.mpr hwr]
      simp
    · simp

/-- The first node, handed the lock, obtains it. -/
theorem At.obtain (I : At s l) (hb : s.role b = .spin l) (hlocked : s.locked b = false)
    (hrole : t.role = Function.update s.role b (.held l)) (hnext : t.next = s.next)
    (hlocked' : t.locked = s.locked) (htail : t.tail l = s.tail l) (hqueue : t.queue l = s.queue l)
    (harrivals : t.arrivals l = s.arrivals l) (hgrants : t.grants l = s.grants l ++ [b])
    (hreleased : t.released l = s.released l) : At t l := by
  have h0 := I.obtain_head hb hlocked
  have hcons := queue_eq_cons h0
  have hqueued := attr_update Role.queued s.role (r := .held l) (b := b) (by rw [hb]; rfl)
  have hpred := attr_update Role.pred s.role (r := .held l) (b := b) (by rw [hb]; rfl)
  have hnot : b ∉ (s.queue l).tail := by
    have hn := I.nodup
    rw [hcons] at hn
    exact (List.nodup_cons.mp hn).1
  have hwaits : ∀ c ∈ (s.queue l).tail, (t.role c).waiting = true := by
    intro c hc
    rw [hrole, Function.update_of_ne]
    · exact I.waiting_of_mem_tail hc
    · rintro rfl
      exact hnot hc
  have hbw : (t.role b).waiting = false := by
    rw [hrole, Function.update_self]
    rfl
  have hfilter : (s.queue l).filter (fun c => (t.role c).waiting) = (s.queue l).tail := by
    rw [hcons, List.filter_cons_of_neg (by rw [hbw]; exact Bool.false_ne_true), List.tail_cons]
    exact List.filter_eq_self.mpr hwaits
  have hfilter' : (s.queue l).filter (fun c => !(t.role c).waiting) = [b] := by
    rw [hcons, List.filter_cons_of_pos (by rw [hbw]; rfl), List.filter_eq_nil_iff.mpr]
    intro c hc
    rw [hwaits c hc]
    exact Bool.false_ne_true
  have hbs : (s.role b).waiting = true := by rw [hb]; rfl
  constructor
  case nodup =>
    rw [hqueue]
    exact I.nodup
  case mem_iff =>
    intro c
    rw [hqueue, hrole, hqueued]
    exact I.mem_iff c
  case tail_eq =>
    rw [htail, hqueue]
    exact I.tail_eq
  case links =>
    rw [hqueue, hrole, hnext]
    intro k c hk
    simp only [hpred]
    exact I.links k c hk
  case preds =>
    rw [hqueue, hrole]
    intro c q hcq hcp
    rw [hqueued] at hcq
    rw [hpred] at hcp
    exact I.preds c q hcq hcp
  case head =>
    rw [hqueue]
    intro c hc hcw
    rw [h0] at hc
    cases hc
    rw [hbw] at hcw
    cases hcw
  case rest =>
    rw [hqueue, hlocked']
    intro k c hc
    have hcb : c ≠ b := by
      rintro rfl
      have hmem := List.mem_of_getElem? (l := (s.queue l).tail) (i := k) (by rwa [List.getElem?_tail])
      exact hnot hmem
    rw [hrole, Function.update_of_ne hcb]
    exact I.rest k c hc
  case succ =>
    rw [hrole, hnext]
    intro c n hr
    by_cases hcb : c = b
    · rw [hcb, Function.update_self] at hr
      cases hr
    · rw [Function.update_of_ne hcb] at hr
      exact I.succ c n hr
  case raced =>
    rw [hrole, htail]
    intro c hr
    by_cases hcb : c = b
    · rw [hcb, Function.update_self] at hr
      cases hr
    · rw [Function.update_of_ne hcb] at hr
      exact I.raced c hr
  case arrived =>
    have ha := I.arrived
    rw [hcons, List.filter_cons, if_pos hbs, (I.filter_tail).1] at ha
    rw [hqueue, hgrants, harrivals, hfilter, ha]
    simp
  case granted =>
    have hg := I.granted
    rw [hcons, List.filter_cons_of_neg (by rw [hbs]; exact Bool.false_ne_true), (I.filter_tail).2] at hg
    rw [hqueue, hgrants, hreleased, hfilter', hg, List.append_nil]

/-- The first node gives up the lock; the next one, if any, has linked itself and has its flag cleared. -/
theorem At.remove (I : At s l) (hq : (s.role b).queued = some l) (hw : (s.role b).waiting = false)
    (hsucc : ∀ n, (s.queue l)[1]? = some n → (s.role n).pred = none ∧ t.locked n = false)
    (hrole : t.role = Function.update s.role b .out) (hnext : t.next = s.next)
    (hlocked : ∀ c, (s.queue l)[1]? ≠ some c → t.locked c = s.locked c)
    (htail : t.tail l = (s.queue l).tail.getLast?) (hqueue : t.queue l = (s.queue l).tail)
    (harrivals : t.arrivals l = s.arrivals l) (hgrants : t.grants l = s.grants l)
    (hreleased : t.released l = s.released l ++ [b]) : At t l := by
  have h0 := I.holder_head hq hw
  have hcons := queue_eq_cons h0
  have hnodup := I.nodup
  rw [hcons] at hnodup
  have hnot : b ∉ (s.queue l).tail := (List.nodup_cons.mp hnodup).1
  have hne : ∀ (k : Nat) c, (s.queue l)[k + 1]? = some c → c ≠ b := by
    rintro k c hc rfl
    exact hnot (List.mem_of_getElem? (i := k) (by rwa [List.getElem?_tail]))
  -- no other node of the queue has got beyond waiting
  have honly : ∀ c, c ≠ b → (s.role c).queued = some l → (s.role c).waiting = true := by
    intro c hcb hcq
    cases hcw : (s.role c).waiting
    · have hc := I.holder_head hcq hcw
      rw [h0] at hc
      exact absurd (Option.some.inj hc).symm hcb
    · rfl
  have hrest : ∀ f : Role N Λ → Bool, (s.queue l).tail.filter (fun c => f (t.role c)) =
      (s.queue l).tail.filter (fun c => f (s.role c)) := by
    intro f
    refine List.filter_congr (fun c hc => ?_)
    rw [hrole, Function.update_of_ne]
    rintro rfl
    exact hnot hc
  constructor
  case nodup =>
    rw [hqueue]
    exact (List.nodup_cons.mp hnodup).2
  case mem_iff =>
    intro c
    rw [hqueue, hrole]
    by_cases hcb : c = b
    · rw [hcb, Function.update_self]
      exact iff_of_false hnot (fun h => nomatch h)
    · rw [Function.update_of_ne hcb, ← I.mem_iff, hcons, List.tail_cons]
      exact ⟨List.mem_cons_of_mem b, fun h => (List.mem_cons.mp h).resolve_left hcb⟩
  case tail_eq =>
    rw [htail, hqueue]
  case links =>
    rw [hqueue, hrole, hnext]
    intro k c hk
    rw [List.getElem?_tail] at hk ⊢
    rw [I.links (k + 1) c hk]
    cases hn : (s.queue l)[k + 1 + 1]? with
    | none => rfl
    | some d => simp only [Option.filter_some, Function.update_of_ne (hne _ d hn)]
  case preds =>
    rw [hqueue, hrole]
    intro c q hcq hcp
    have hcb : c ≠ b := by
      rintro rfl
      rw [Function.update_self] at hcq
      cases hcq
    rw [Function.update_of_ne hcb] at hcq hcp
    obtain ⟨k, hkq, hkc⟩ := I.preds c q hcq hcp
    cases k with
    | zero =>
      rw [(hsucc c hkc).1] at hcp
      cases hcp
    | succ k => exact ⟨k, by rwa [List.getElem?_tail], by rwa [List.getElem?_tail]⟩
  case head =>
    rw [hqueue, hrole]
    intro c hc hcw
    rw [List.getElem?_tail] at hc
    rw [Function.update_of_ne (hne 0 c hc)]
    exact hsucc c hc
  case rest =>
    rw [hqueue]
    intro k c hc
    rw [List.getElem?_tail] at hc
    have hne1 : (s.queue l)[1]? ≠ some c := by
      intro h1
      have hinj := (List.getElem?_inj (List.getElem?_eq_some_iff.mp hc).1 I.nodup).mp (hc.trans h1.symm)
      omega
    rw [hlocked c hne1, hrole, Function.update_of_ne (hne _ c hc)]
    exact I.rest (k + 1) c hc
  case succ =>
    rw [hrole]
    intro c n hr
    obtain ⟨hcb, hr⟩ := of_update_eq hr (by intro h; cases h)
    have hcw := honly c hcb (by rw [hr]; rfl)
    rw [hr] at hcw
    cases hcw
  case raced =>
    rw [hrole]
    intro c hr
    obtain ⟨hcb, hr⟩ := of_update_eq hr (by intro h; cases h)
    have hcw := honly c hcb (by rw [hr]; rfl)
    rw [hr] at hcw
    cases hcw
  case arrived =>
    have ha := I.arrived
    rw [hcons, List.filter_cons_of_neg (by rw [hw]; exact Bool.false_ne_true)] at ha
    rw [hqueue, harrivals, hgrants, hrest Role.waiting]
    exact ha
  case granted =>
    have hg := I.granted
    rw [hcons, List.filter_cons_of_pos (by rw [hw]; rfl), (I.filter_tail).2] at hg
    rw [hqueue, hgrants, hreleased, hrest (fun r => !r.waiting), (I.filter_tail).2, hg, List.append_nil]

/-- A step between two roles that are alike for every lock. -/
theorem Inv.same {r : Role N Λ} (I : Inv s) (hq : r.queued = (s.role b).queued)
    (hp : r.pred = (s.role b).pred) (hw : r.waiting = (s.role b).waiting)
    (ha : r.armed = true → (s.role b).armed = true ∨ s.locked b = true)
    (hsucc : ∀ l n, r = .handoff l n → s.next b = some n)
    (hraced : ∀ l, r = .wait l → s.tail l ≠ some b) (hready : ∀ l, r = .ready l → s.next b = none) :
    Inv { s with role := Function.update s.role b r } where
  lock := fun l => (I.lock l).same hq hp hw ha (hsucc l) (hraced l)
  ready := by
    intro c l h
    dsimp only at h ⊢
    by_cases hcb : c = b
    · rw [hcb, Function.update_self] at h
      rw [hcb]
      exact hready l h
    · rw [Function.update_of_ne hcb] at h
      exact I.ready c l h

/-! ## Every step keeps the invariant -/

variable [DecidableEq Λ]

/-- The steps of the protocol. -/
inductive Step (s : State N Λ) : State N Λ → Prop where
  | clearNext (b : N) (hb : (s.role b).queued = none) :
      Step s { s with next := Function.update s.next b none }
  | clearLocked (b : N) (hb : (s.role b).queued = none) :
      Step s { s with locked := Function.update s.locked b false }
  | prepare (b : N) (l : Λ) (hb : s.role b = .out) :
      Step s { s with role := Function.update s.role b (.ready l)
                      next := Function.update s.next b none }
  | giveUp (b : N) (l : Λ) (hb : s.role b = .ready l) :
      Step s { s with role := Function.update s.role b .out }
  | enter (b : N) (l : Λ) (hb : s.role b = .ready l) (htail : s.tail l = none) :
      Step s { s with role := Function.update s.role b (.held l)
                      tail := Function.update s.tail l (some b)
                      queue := Function.update s.queue l (s.queue l ++ [b])
                      arrivals := Function.update s.arrivals l (s.arrivals l ++ [b])
                      grants := Function.update s.grants l (s.grants l ++ [b]) }
  | exchange (b : N) (l : Λ) (p : N) (hb : s.role b = .ready l) (htail : s.tail l = some p) :
      Step s { s with role := Function.update s.role b (.setLocked l p)
                      tail := Function.update s.tail l (some b)
                      queue := Function.update s.queue l (s.queue l ++ [b])
                      arrivals := Function.update s.arrivals l (s.arrivals l ++ [b]) }
  | setLocked (b : N) (l : Λ) (p : N) (hb : s.role b = .setLocked l p) :
      Step s { s with role := Function.update s.role b (.link l p)
                      locked := Function.update s.locked b true }
  | link (b : N) (l : Λ) (p : N) (hb : s.role b = .link l p) :
      Step s { s with role := Function.update s.role b (.spin l)
                      next := Function.update s.next p (some b) }
  | obtain (b : N) (l : Λ) (hb : s.role b = .spin l) (hlocked : s.locked b = false) :
      Step s { s with role := Function.update s.role b (.held l)
                      grants := Function.update s.grants l (s.grants l ++ [b]) }
  | release (b : N) (l : Λ) (hb : s.role b = .held l) :
      Step s { s with role := Function.update s.role b (.load l) }
  | look (b : N) (l : Λ) (n : N) (hb : s.role b = .load l ∨ s.role b = .wait l)
      (hnext : s.next b = some n) : Step s { s with role := Function.update s.role b (.handoff l n) }
  | miss (b : N) (l : Λ) (hb : s.role b = .load l) :
      Step s { s with role := Function.update s.role b (.cas l) }
  | raced (b : N) (l : Λ) (hb : s.role b = .cas l) (htail : s.tail l ≠ some b) :
      Step s { s with role := Function.update s.role b (.wait l) }
  | close (b : N) (l : Λ) (hb : s.role b = .cas l) (htail : s.tail l = some b) :
      Step s { s with role := Function.update s.role b .out
                      tail := Function.update s.tail l none
                      queue := Function.update s.queue l (s.queue l).tail
                      released := Function.update s.released l (s.released l ++ [b]) }
  | pass (b : N) (l : Λ) (n : N) (hb : s.role b = .handoff l n) :
      Step s { s with role := Function.update s.role b .out
                      locked := Function.update s.locked n false
                      queue := Function.update s.queue l (s.queue l).tail
                      released := Function.update s.released l (s.released l ++ [b]) }

/-- **A step at one lock.**  A node that is in no other queue changes its role; of the other locks, and of the
nodes that are not in the queue, nothing changes. -/
theorem Inv.at_lock {r : Role N Λ} (I : Inv s) (hl : At t l)
    (hrole : t.role = Function.update s.role b r) (hb : ∀ l', (s.role b).queued = some l' → l' = l)
    (hr : ∀ l', r.queued = some l' → l' = l) (hready : ∀ l', r ≠ .ready l')
    (hsame : ∀ l', l' ≠ l → SameAt s t l')
    (hnode : ∀ c, (s.role c).queued ≠ some l → t.next c = s.next c ∧ t.locked c = s.locked c) :
    Inv t where
  lock := by
    intro l'
    by_cases hll : l' = l
    · rw [hll]
      exact hl
    · refine (I.lock l').frame_update (hsame l' hll) hrole (fun h => hll (hb l' h))
        (fun h => hll (hr l' h)) (fun c hc => hnode c ?_)
      rw [hc]
      exact fun h => hll (Option.some.inj h)
  ready := by
    intro c l' h
    rw [hrole] at h
    by_cases hcb : c = b
    · rw [hcb, Function.update_self] at h
      exact absurd h (hready l')
    · rw [Function.update_of_ne hcb] at h
      rw [(hnode c (by rw [h]; exact fun h => nomatch h)).1]
      exact I.ready c l' h

/-- The queue is closed. -/
theorem Inv.close (I : Inv s) (hb : s.role b = .cas l) (htail : s.tail l = some b) :
    Inv { s with role := Function.update s.role b .out
                 tail := Function.update s.tail l none
                 queue := Function.update s.queue l (s.queue l).tail
                 released := Function.update s.released l (s.released l ++ [b]) } := by
  have hbq : (s.role b).queued = some l := by rw [hb]; rfl
  have hqueue := (I.lock l).queue_of_tail hb htail
  refine I.at_lock (r := .out) ?_ rfl (queued_unique hbq) (fun _ h => nomatch h)
    (fun _ h => nomatch h) (fun l' hl => ?_) (fun _ _ => ⟨rfl, rfl⟩)
  · refine (I.lock l).remove hbq (by rw [hb]; rfl) ?_ rfl rfl (fun _ _ => rfl) ?_
      (Function.update_self ..) rfl rfl (Function.update_self ..)
    · intro n hn
      rw [hqueue] at hn
      cases hn
    · rw [hqueue]
      exact Function.update_self ..
  · exact ⟨Function.update_of_ne hl .., Function.update_of_ne hl .., rfl, rfl,
      Function.update_of_ne hl ..⟩

/-- The lock is handed on. -/
theorem Inv.pass (I : Inv s) (hb : s.role b = .handoff l n) :
    Inv { s with role := Function.update s.role b .out
                 locked := Function.update s.locked n false
                 queue := Function.update s.queue l (s.queue l).tail
                 released := Function.update s.released l (s.released l ++ [b]) } := by
  have hbq : (s.role b).queued = some l := by rw [hb]; rfl
  have h0 := (I.lock l).holder_head hbq (by rw [hb]; rfl)
  obtain ⟨h1, hpred⟩ := (I.lock l).successor hb
  have hnq := ((I.lock l).mem_iff n).mp (List.mem_of_getElem? h1)
  refine I.at_lock (r := .out) ?_ rfl (queued_unique hbq) (fun _ h => nomatch h)
    (fun _ h => nomatch h) (fun l' hl => ?_) (fun c hc => ⟨rfl, ?_⟩)
  · refine (I.lock l).remove hbq (by rw [hb]; rfl) ?_ rfl rfl ?_ ?_ (Function.update_self ..) rfl rfl
      (Function.update_self ..)
    · intro c hc
      rw [h1] at hc
      cases hc
      exact ⟨hpred, Function.update_self ..⟩
    · intro c hc
      apply Function.update_of_ne
      rintro rfl
      exact hc h1
    · show s.tail l = _
      rw [(I.lock l).tail_eq, queue_eq_cons h0, List.tail_cons]
      cases ht : (s.queue l).tail with
      | nil =>
        rw [← List.getElem?_tail, ht] at h1
        cases h1
      | cons c q => exact List.getLast?_cons_cons
  · exact ⟨Function.update_of_ne hl .., rfl, rfl, rfl, Function.update_of_ne hl ..⟩
  · apply Function.update_of_ne
    rintro rfl
    exact hc hnq

/-- **The step rule.** -/
theorem Inv.step (I : Inv s) (h : Step s t) : Inv t := by
  cases h with
  | clearNext b hb => exact I.clearNext hb
  | clearLocked b hb => exact I.clearLocked hb
  | prepare b l hb =>
    have hbq : (s.role b).queued = none := by rw [hb]; rfl
    refine (I.clearNext hbq).same (by rw [hb]; rfl) (by rw [hb]; rfl) (by rw [hb]; rfl)
      (fun h => nomatch h) (fun _ _ h => nomatch h) (fun _ h => nomatch h) (fun _ _ => ?_)
    exact Function.update_self ..
  | giveUp b l hb =>
    exact I.same (by rw [hb]; rfl) (by rw [hb]; rfl) (by rw [hb]; rfl)
      (fun h => nomatch h) (fun _ _ h => nomatch h) (fun _ h => nomatch h) (fun _ h => nomatch h)
  | enter b l hb htail =>
    have hbq : (s.role b).queued = none := by rw [hb]; rfl
    refine I.at_lock (l := l) (r := .held l) ?_ rfl (by rw [hbq]; exact fun _ h => nomatch h)
      (queued_unique rfl) (fun _ h => nomatch h) (fun l' hl => ?_) (fun _ _ => ⟨rfl, rfl⟩)
    · exact (I.lock l).append (r := .held l) hbq (I.ready b l hb) rfl (by rw [htail]; rfl)
        (by rw [htail]; rfl) rfl (fun _ h => nomatch h) (fun h => nomatch h) rfl rfl rfl
        (Function.update_self ..) (Function.update_self ..) (Function.update_self ..)
        (Function.update_self ..) rfl
    · exact ⟨Function.update_of_ne hl .., Function.update_of_ne hl .., Function.update_of_ne hl ..,
        Function.update_of_ne hl .., rfl⟩
  | exchange b l p hb htail =>
    have hbq : (s.role b).queued = none := by rw [hb]; rfl
    refine I.at_lock (l := l) (r := .setLocked l p) ?_ rfl (by rw [hbq]; exact fun _ h => nomatch h)
      (queued_unique rfl) (fun _ h => nomatch h) (fun l' hl => ?_) (fun _ _ => ⟨rfl, rfl⟩)
    · exact (I.lock l).append (r := .setLocked l p) hbq (I.ready b l hb) rfl (by rw [htail]; rfl)
        (by rw [htail]; rfl) rfl (fun _ h => nomatch h) (fun h => nomatch h) rfl rfl rfl
        (Function.update_self ..) (Function.update_self ..) (Function.update_self ..)
        (List.append_nil _).symm rfl
    · exact ⟨Function.update_of_ne hl .., Function.update_of_ne hl .., Function.update_of_ne hl ..,
        rfl, rfl⟩
  | setLocked b l p hb =>
    have hbq : (s.role b).queued = some l := by rw [hb]; rfl
    refine I.at_lock (r := .link l p) ?_ rfl (queued_unique hbq) (queued_unique rfl)
      (fun _ h => nomatch h) (fun _ _ => ⟨rfl, rfl, rfl, rfl, rfl⟩) (fun c hc => ⟨rfl, ?_⟩)
    · refine ((I.lock l).raise hb).same (r := .link l p) (by rw [hb]; rfl) (by rw [hb]; rfl)
        (by rw [hb]; rfl) (fun _ => Or.inr ?_) (fun _ h => nomatch h) (fun h => nomatch h)
      exact Function.update_self ..
    · apply Function.update_of_ne
      rintro rfl
      exact hc hbq
  | link b l p hb =>
    have hbq : (s.role b).queued = some l := by rw [hb]; rfl
    obtain ⟨k, hkp, -⟩ := (I.lock l).preds b p hbq (by rw [hb]; rfl)
    have hpq := ((I.lock l).mem_iff p).mp (List.mem_of_getElem? hkp)
    refine I.at_lock (r := .spin l) ((I.lock l).link hb) rfl (queued_unique hbq) (queued_unique rfl)
      (fun _ h => nomatch h) (fun _ _ => ⟨rfl, rfl, rfl, rfl, rfl⟩) (fun c hc => ⟨?_, rfl⟩)
    apply Function.update_of_ne
    rintro rfl
    exact hc hpq
  | obtain b l hb hlocked =>
    have hbq : (s.role b).queued = some l := by rw [hb]; rfl
    refine I.at_lock (r := .held l) ?_ rfl (queued_unique hbq) (queued_unique rfl)
      (fun _ h => nomatch h) (fun l' hl => ?_) (fun _ _ => ⟨rfl, rfl⟩)
    · exact (I.lock l).obtain hb hlocked rfl rfl rfl rfl rfl rfl (Function.update_self ..) rfl
    · exact ⟨rfl, rfl, rfl, Function.update_of_ne hl .., rfl⟩
  | release b l hb =>
    exact I.same (by rw [hb]; rfl) (by rw [hb]; rfl) (by rw [hb]; rfl)
      (fun h => nomatch h) (fun _ _ h => nomatch h) (fun _ h => nomatch h) (fun _ h => nomatch h)
  | look b l n hb hnext =>
    have hsucc : ∀ l' n', Role.handoff l n = .handoff l' n' → s.next b = some n' := by
      intro l' n' h
      cases h
      exact hnext
    rcases hb with hb | hb
    · exact I.same (by rw [hb]; rfl) (by rw [hb]; rfl) (by rw [hb]; rfl)
        (fun h => nomatch h) hsucc (fun _ h => nomatch h) (fun _ h => nomatch h)
    · exact I.same (by rw [hb]; rfl) (by rw [hb]; rfl) (by rw [hb]; rfl)
        (fun h => nomatch h) hsucc (fun _ h => nomatch h) (fun _ h => nomatch h)
  | miss b l hb =>
    exact I.same (by rw [hb]; rfl) (by rw [hb]; rfl) (by rw [hb]; rfl)
      (fun h => nomatch h) (fun _ _ h => nomatch h) (fun _ h => nomatch h) (fun _ h => nomatch h)
  | raced b l hb htail =>
    have hraced : ∀ l', Role.wait (N := N) l = .wait l' → s.tail l' ≠ some b := by
      intro l' h
      cases h
      exact htail
    exact I.same (by rw [hb]; rfl) (by rw [hb]; rfl) (by rw [hb]; rfl)
      (fun h => nomatch h) (fun _ _ h => nomatch h) hraced (fun _ h => nomatch h)
  | close b l hb htail => exact I.close hb htail
  | pass b l n hb => exact I.pass hb

end QueueLock
