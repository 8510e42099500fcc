import CachePool.Lib.Machine

/-!
# Networks of lanes

A packet enters a network at one lane, waits there, and on leaving it either enters the next lane or
arrives at an end.  Which packet a lane gives out next is not the network's choice: `leave k n` says that
lane `k` gives out the packet that entered it as its `n`-th, and `KeepsOrder` that it gives them out in the
order they came in.

* `SameLanes` — two packets pass the same lanes, one after another.
* `Moves` — a network whose lanes keep order, as one queue per lane; `view_next` connects the two.
* `Inv.moves` — of two packets that pass the same lanes, the later one is never further, and where they
  wait in one lane it waits behind.
* `in_order` — packets that pass the same lanes arrive in the order they were issued in.
-/

set_option autoImplicit false

universe u v w x

namespace FifoNet

/-- Where a packet enters, and what becomes of a packet that leaves a lane: it enters a lane, or it has
arrived.  A packet with `pass k a = none` cannot leave lane `k`. -/
structure Net (ι : Type u) (κ : Type v) (α : Type w) (δ : Type x) where
  enter : ι → κ × α
  pass : κ → α → Option ((κ × α) ⊕ δ)

/-- A packet as it was issued; `stamp` counts the ones issued before it. -/
structure Entry (ι : Type u) where
  stamp : Nat
  item : ι
  deriving DecidableEq

/-- A packet under way.  No move looks at `entry` and `hops`, the number of lanes it has left. -/
structure Packet (ι : Type u) (α : Type w) where
  entry : Entry ι
  hops : Nat
  payload : α

/-- The packets that have entered each lane so far, the number of those that have left it, and the
packets issued and arrived so far, oldest first. -/
structure State (ι : Type u) (κ : Type v) (α : Type w) (δ : Type x) where
  issued : List (Entry ι)
  entered : κ → List (Packet ι α)
  left : κ → Nat
  arrived : List (Entry ι × δ)

inductive Act (ι : Type u) (κ : Type v) where
  | issue (i : ι)
  /-- lane `k` gives out the packet that entered it as its `n`-th -/
  | leave (k : κ) (n : Nat)

variable {ι : Type u} {κ : Type v} {α : Type w} {δ : Type x}

/-- A packet goes to the end of a lane. -/
def put [DecidableEq κ] (f : κ → List (Packet ι α)) (k : κ) (p : Packet ι α) :
    κ → List (Packet ι α) :=
  Function.update f k (f k ++ [p])

namespace Net

variable (N : Net ι κ α δ)

section Machine

variable [DecidableEq κ]

def next (s : State ι κ α δ) : Act ι κ → State ι κ α δ
  | .issue i =>
    let e : Entry ι := ⟨s.issued.length, i⟩
    { s with issued := s.issued ++ [e]
             entered := put s.entered (N.enter i).1 ⟨e, 0, (N.enter i).2⟩ }
  | .leave k n =>
    match (s.entered k)[n]? with
    | none => s
    | some p =>
      match N.pass k p.payload with
      | none => s
      | some (.inl (k', a)) =>
        { s with left := Function.update s.left k (s.left k + 1)
                 entered := put s.entered k' ⟨p.entry, p.hops + 1, a⟩ }
      | some (.inr d) =>
        { s with left := Function.update s.left k (s.left k + 1)
                 arrived := s.arrived ++ [(p.entry, d)] }

def machine : Machine (State ι κ α δ) (Act ι κ) where
  init := { issued := [], entered := fun _ => [], left := fun _ => 0, arrived := [] }
  next := N.next

end Machine

/-! ## The lanes a packet passes -/

/-- Where a packet is after leaving `n` lanes. -/
def after (i : ι) : Nat → Option ((κ × α) ⊕ δ)
  | 0 => some (.inl (N.enter i))
  | n + 1 =>
    match after i n with
    | some (.inl (k, a)) => N.pass k a
    | _ => none

/-- The lane a packet is in after leaving `n` others. -/
def laneAfter (i : ι) (n : Nat) : Option κ :=
  match N.after i n with
  | some (.inl (k, _)) => some k
  | _ => none

def SameLanes (i j : ι) : Prop := ∀ n, N.laneAfter i n = N.laneAfter j n

end Net

/-- A lane gives its packets out in the order they entered it. -/
def KeepsOrder (s : State ι κ α δ) : Act ι κ → Prop
  | .issue _ => True
  | .leave k n => n = s.left k

instance (s : State ι κ α δ) (x : Act ι κ) : Decidable (KeepsOrder s x) :=
  match x with
  | .issue _ => isTrue trivial
  | .leave k n => inferInstanceAs (Decidable (n = s.left k))

variable {N : Net ι κ α δ}

theorem Net.after_succ {i : ι} {n : Nat} {k : κ} {a : α} (h : N.after i n = some (.inl (k, a))) :
    N.after i (n + 1) = N.pass k a := by
  simp only [Net.after, h]

theorem Net.laneAfter_of_after {i : ι} {n : Nat} {k : κ} {a : α}
    (h : N.after i n = some (.inl (k, a))) : N.laneAfter i n = some k := by
  simp only [Net.laneAfter, h]

theorem Net.SameLanes.symm {i j : ι} (h : N.SameLanes i j) : N.SameLanes j i :=
  fun n => (h n).symm

/-- A packet that is in no lane after `n` of them is nowhere later on. -/
theorem Net.after_eq_none {i : ι} {n : Nat} (h : N.laneAfter i n = none) (m : Nat) :
    N.after i (n + m + 1) = none := by
  induction m with
  | zero =>
    unfold Net.laneAfter at h
    simp only [Net.after]
    split at h
    · cases h
    · rfl
  | succ m ih =>
    rw [← Nat.add_assoc n m 1]
    simp only [Net.after] at ih ⊢
    rw [ih]

theorem Net.laneAfter_arrived {i : ι} {n : Nat} {d : δ} (h : N.after i n = some (.inr d)) :
    N.laneAfter i n = none := by
  simp only [Net.laneAfter, h]

/-- A packet arrives after one number of lanes. -/
theorem Net.arrived_unique {i : ι} {m n : Nat} {d d' : δ} (hm : N.after i m = some (.inr d))
    (hn : N.after i n = some (.inr d')) : m = n := by
  rcases Nat.lt_trichotomy m n with hlt | heq | hlt
  · have hnone := Net.after_eq_none (Net.laneAfter_arrived hm) (n - m - 1)
    rw [show m + (n - m - 1) + 1 = n by omega, hn] at hnone
    cases hnone
  · exact heq
  · have hnone := Net.after_eq_none (Net.laneAfter_arrived hn) (m - n - 1)
    rw [show n + (m - n - 1) + 1 = m by omega, hm] at hnone
    cases hnone

/-- A packet that is in a lane has been in one after every smaller number of lanes. -/
theorem Net.laneAfter_ne_none {i : ι} {n : Nat} {k : κ} {a : α}
    (h : N.after i n = some (.inl (k, a))) {m : Nat} (hm : m ≤ n) : N.laneAfter i m ≠ none := by
  intro hnone
  rcases Nat.eq_or_lt_of_le hm with rfl | hlt
  · rw [Net.laneAfter_of_after h] at hnone
    cases hnone
  · have hlater := Net.after_eq_none hnone (n - m - 1)
    rw [show m + (n - m - 1) + 1 = n by omega, h] at hlater
    cases hlater

/-! ## Queues -/

/-- The packets waiting in lane `k`, when it keeps order. -/
def State.waiting (s : State ι κ α δ) (k : κ) : List (Packet ι α) := (s.entered k).drop (s.left k)

/-- What is issued, waits and has arrived. -/
structure View (ι : Type u) (κ : Type v) (α : Type w) (δ : Type x) where
  issued : List (Entry ι)
  waiting : κ → List (Packet ι α)
  arrived : List (Entry ι × δ)

def State.view (s : State ι κ α δ) : View ι κ α δ := ⟨s.issued, s.waiting, s.arrived⟩

section Queues

variable [DecidableEq κ]

/-- The moves of the network with one queue per lane. -/
inductive Moves (N : Net ι κ α δ) (v : View ι κ α δ) : View ι κ α δ → Prop
  | issue (i : ι) : Moves N v
      { v with issued := v.issued ++ [⟨v.issued.length, i⟩]
               waiting := put v.waiting (N.enter i).1 ⟨⟨v.issued.length, i⟩, 0, (N.enter i).2⟩ }
  | pass {k k' : κ} {p : Packet ι α} {rest : List (Packet ι α)} {a : α}
      (head : v.waiting k = p :: rest) (goes : N.pass k p.payload = some (.inl (k', a))) : Moves N v
      { v with waiting := put (Function.update v.waiting k rest) k' ⟨p.entry, p.hops + 1, a⟩ }
  | arrive {k : κ} {p : Packet ι α} {rest : List (Packet ι α)} {d : δ}
      (head : v.waiting k = p :: rest) (goes : N.pass k p.payload = some (.inr d)) : Moves N v
      { v with waiting := Function.update v.waiting k rest
               arrived := v.arrived ++ [(p.entry, d)] }

/-- No lane has given out more packets than have entered it. -/
def Bounded (s : State ι κ α δ) : Prop := ∀ k, s.left k ≤ (s.entered k).length

theorem waiting_put (s : State ι κ α δ) (hb : Bounded s) (k : κ) (p : Packet ι α) :
    State.waiting { s with entered := put s.entered k p } = put s.waiting k p := by
  funext k'
  by_cases hk : k' = k
  · subst hk
    simp [State.waiting, put, List.drop_append_of_le_length (hb k')]
  · simp [State.waiting, put, Function.update_of_ne hk]

theorem waiting_left (s : State ι κ α δ) {k : κ} {p : Packet ι α}
    (hp : (s.entered k)[s.left k]? = some p) :
    s.waiting k = p :: (s.entered k).drop (s.left k + 1) ∧
      State.waiting { s with left := Function.update s.left k (s.left k + 1) } =
        Function.update s.waiting k ((s.entered k).drop (s.left k + 1)) := by
  obtain ⟨hlt, hget⟩ := List.getElem?_eq_some_iff.mp hp
  refine ⟨by rw [State.waiting, List.drop_eq_getElem_cons hlt, hget], ?_⟩
  funext k'
  by_cases hk : k' = k
  · subst hk
    simp [State.waiting]
  · simp [State.waiting, Function.update_of_ne hk]

theorem Bounded.put {s : State ι κ α δ} (hb : Bounded s) (k : κ) (p : Packet ι α) :
    Bounded { s with entered := put s.entered k p } := by
  intro k'
  have := hb k'
  by_cases hk : k' = k
  · subst hk
    simp only [FifoNet.put, Function.update_self, List.length_append, List.length_singleton]
    omega
  · simpa only [FifoNet.put, Function.update_of_ne hk] using this

theorem Bounded.left {s : State ι κ α δ} (hb : Bounded s) {k : κ} {p : Packet ι α}
    (hp : (s.entered k)[s.left k]? = some p) :
    Bounded { s with left := Function.update s.left k (s.left k + 1) } := by
  intro k'
  obtain ⟨hlt, -⟩ := List.getElem?_eq_some_iff.mp hp
  by_cases hk : k' = k
  · subst hk
    dsimp only
    rw [Function.update_self]
    exact hlt
  · simpa only [Function.update_of_ne hk] using hb k'

/-- **A network whose lanes keep order is a network of queues.** -/
theorem view_next {s : State ι κ α δ} {x : Act ι κ} (hb : Bounded s) (hx : KeepsOrder s x) :
    Bounded (N.next s x) ∧
      ((N.next s x).view = s.view ∨ Moves N s.view (N.next s x).view) := by
  cases x with
  | issue i =>
    refine ⟨hb.put _ _, Or.inr ?_⟩
    have hw := waiting_put s hb (N.enter i).1 ⟨⟨s.issued.length, i⟩, 0, (N.enter i).2⟩
    have := Moves.issue (N := N) (v := s.view) i
    simp only [State.view, ← hw] at this
    exact this
  | leave k n =>
    simp only [KeepsOrder] at hx
    subst hx
    unfold Net.next
    dsimp only
    split
    · exact ⟨hb, Or.inl rfl⟩
    · rename_i p hp
      obtain ⟨hhead, hrest⟩ := waiting_left s hp
      split
      · exact ⟨hb, Or.inl rfl⟩
      · rename_i k' a hgoes
        refine ⟨(hb.left hp).put _ _, Or.inr ?_⟩
        have hw := waiting_put _ (hb.left hp) k' ⟨p.entry, p.hops + 1, a⟩
        have := Moves.pass (v := s.view) hhead hgoes
        simp only [State.view, ← hrest, ← hw] at this
        exact this
      · rename_i d hgoes
        refine ⟨hb.left hp, Or.inr ?_⟩
        have := Moves.arrive (v := s.view) hhead hgoes
        simp only [State.view, ← hrest] at this
        exact this

theorem mem_put {f : κ → List (Packet ι α)} {k k' : κ} {p q : Packet ι α} :
    q ∈ put f k p k' ↔ q ∈ f k' ∨ (k' = k ∧ q = p) := by
  by_cases hk : k' = k
  · subst hk
    simp [put]
  · simp [put, hk]

theorem mem_of_mem_rest {f : κ → List (Packet ι α)} {k k' : κ} {p q : Packet ι α}
    {rest : List (Packet ι α)} (head : f k = p :: rest) (hq : q ∈ Function.update f k rest k') :
    q ∈ f k' := by
  by_cases hk : k' = k
  · subst hk
    rw [Function.update_self] at hq
    rw [head]
    exact List.mem_cons_of_mem _ hq
  · rwa [Function.update_of_ne hk] at hq

theorem mem_rest_or {f : κ → List (Packet ι α)} {k k' : κ} {p q : Packet ι α}
    {rest : List (Packet ι α)} (head : f k = p :: rest) (hq : q ∈ f k') :
    q = p ∨ q ∈ Function.update f k rest k' := by
  by_cases hk : k' = k
  · subst hk
    rw [head] at hq
    rw [Function.update_self]
    exact List.mem_cons.mp hq
  · right
    rwa [Function.update_of_ne hk]

/-! ## Order -/

/-- What holds of the queues: the packets are where their way has led them, every issued packet is under
way or has arrived, and of two packets that pass the same lanes the later one is behind. -/
structure Inv (N : Net ι κ α δ) (v : View ι κ α δ) : Prop where
  stamped : ∀ e ∈ v.issued, e.stamp < v.issued.length
  sorted : v.issued.Pairwise fun e e' => e.stamp < e'.stamp
  located : ∀ k, ∀ p ∈ v.waiting k,
    p.entry ∈ v.issued ∧ N.after p.entry.item p.hops = some (.inl (k, p.payload))
  ended : ∀ a ∈ v.arrived, a.1 ∈ v.issued ∧ ∃ n, N.after a.1.item n = some (.inr a.2)
  accounted : ∀ e ∈ v.issued, (∃ k, ∃ p ∈ v.waiting k, p.entry = e) ∨ ∃ d, (e, d) ∈ v.arrived
  queued : ∀ k, (v.waiting k).Pairwise fun p q =>
    N.SameLanes p.entry.item q.entry.item → p.hops = q.hops → p.entry.stamp < q.entry.stamp
  ahead : ∀ k, ∀ p ∈ v.waiting k, ∀ k', ∀ q ∈ v.waiting k',
    N.SameLanes p.entry.item q.entry.item → p.hops < q.hops → q.entry.stamp < p.entry.stamp
  gone : ∀ a ∈ v.arrived, ∀ k, ∀ p ∈ v.waiting k,
    N.SameLanes a.1.item p.entry.item → a.1.stamp < p.entry.stamp
  inTurn : v.arrived.Pairwise fun a b => N.SameLanes a.1.item b.1.item → a.1.stamp < b.1.stamp

namespace Inv

variable {v v' : View ι κ α δ}

theorem init (N : Net ι κ α δ) : Inv N N.machine.init.view where
  stamped := by simp [Net.machine, State.view]
  sorted := by simp [Net.machine, State.view]
  located := by simp [Net.machine, State.view, State.waiting]
  ended := by simp [Net.machine, State.view]
  accounted := by simp [Net.machine, State.view]
  queued := by simp [Net.machine, State.view, State.waiting]
  ahead := by simp [Net.machine, State.view, State.waiting]
  gone := by simp [Net.machine, State.view]
  inTurn := by simp [Net.machine, State.view]

/-- The head of a lane is older than every packet on the same lanes that is no further. -/
theorem head_oldest (h : Inv N v) {k : κ} {p : Packet ι α} {rest : List (Packet ι α)}
    (head : v.waiting k = p :: rest) {k' : κ} {q : Packet ι α}
    (hq : q ∈ Function.update v.waiting k rest k')
    (hsame : N.SameLanes p.entry.item q.entry.item) (hle : q.hops ≤ p.hops) :
    p.entry.stamp < q.entry.stamp := by
  have hp : p ∈ v.waiting k := by rw [head]; exact List.mem_cons_self
  have hq' := mem_of_mem_rest head hq
  rcases Nat.lt_or_eq_of_le hle with hlt | heq
  · exact h.ahead k' q hq' k p hp hsame.symm hlt
  · -- after the same number of lanes both are in the same lane, and `q` is behind
    have hlane := hsame p.hops
    rw [Net.laneAfter_of_after (h.located k p hp).2, ← heq,
      Net.laneAfter_of_after (h.located k' q hq').2] at hlane
    cases hlane
    rw [Function.update_self] at hq
    have hqueued := h.queued k
    rw [head, List.pairwise_cons] at hqueued
    exact hqueued.1 q hq hsame heq.symm

/-- What waits after the head of a lane has left it is still in order. -/
theorem queued_rest (h : Inv N v) {k : κ} {p : Packet ι α} {rest : List (Packet ι α)}
    (head : v.waiting k = p :: rest) (k' : κ) :
    (Function.update v.waiting k rest k').Pairwise fun p q =>
      N.SameLanes p.entry.item q.entry.item → p.hops = q.hops → p.entry.stamp < q.entry.stamp := by
  by_cases hk : k' = k
  · subst hk
    have hqueued := h.queued k'
    rw [head, List.pairwise_cons] at hqueued
    rw [Function.update_self]
    exact hqueued.2
  · rw [Function.update_of_ne hk]
    exact h.queued k'

theorem issue (h : Inv N v) (i : ι) : Inv N
    { v with issued := v.issued ++ [⟨v.issued.length, i⟩]
             waiting := put v.waiting (N.enter i).1 ⟨⟨v.issued.length, i⟩, 0, (N.enter i).2⟩ } where
  stamped := by
    intro e he
    rw [List.length_append, List.length_singleton]
    rcases List.mem_append.mp he with he | he
    · exact Nat.lt_succ_of_lt (h.stamped e he)
    · rw [List.mem_singleton.mp he]
      exact Nat.lt_succ_self _
  sorted := by
    rw [List.pairwise_append]
    refine ⟨h.sorted, List.pairwise_singleton _ _, ?_⟩
    intro e he e' he'
    rw [List.mem_singleton.mp he']
    exact h.stamped e he
  located := by
    intro k p hp
    rcases mem_put.mp hp with hp | ⟨rfl, rfl⟩
    · exact ⟨List.mem_append_left _ (h.located k p hp).1, (h.located k p hp).2⟩
    · exact ⟨List.mem_append_right _ List.mem_cons_self, rfl⟩
  ended := by
    intro a ha
    exact ⟨List.mem_append_left _ (h.ended a ha).1, (h.ended a ha).2⟩
  accounted := by
    intro e he
    rcases List.mem_append.mp he with he | he
    · rcases h.accounted e he with ⟨k, p, hp, hpe⟩ | harr
      · exact Or.inl ⟨k, p, mem_put.mpr (Or.inl hp), hpe⟩
      · exact Or.inr harr
    · exact Or.inl ⟨_, _, mem_put.mpr (Or.inr ⟨rfl, rfl⟩), (List.mem_singleton.mp he).symm⟩
  queued := by
    intro k
    by_cases hk : k = (N.enter i).1
    · subst hk
      simp only [put, Function.update_self]
      rw [List.pairwise_append]
      refine ⟨h.queued _, List.pairwise_singleton _ _, ?_⟩
      intro p hp q hq _ _
      rw [List.mem_singleton.mp hq]
      exact h.stamped _ (h.located _ p hp).1
    · simp only [put, Function.update_of_ne hk]
      exact h.queued k
  ahead := by
    intro k p hp k' q hq hsame hlt
    rcases mem_put.mp hq with hq | ⟨-, rfl⟩
    · rcases mem_put.mp hp with hp | ⟨-, rfl⟩
      · exact h.ahead k p hp k' q hq hsame hlt
      · exact h.stamped _ (h.located _ q hq).1
    · exact absurd hlt (Nat.not_lt_zero _)
  gone := by
    intro a ha k p hp hsame
    rcases mem_put.mp hp with hp | ⟨-, rfl⟩
    · exact h.gone a ha k p hp hsame
    · exact h.stamped _ (h.ended a ha).1
  inTurn := h.inTurn

theorem pass (h : Inv N v) {k k' : κ} {p : Packet ι α} {rest : List (Packet ι α)} {a : α}
    (head : v.waiting k = p :: rest) (goes : N.pass k p.payload = some (.inl (k', a))) : Inv N
    { v with
      waiting := put (Function.update v.waiting k rest) k' ⟨p.entry, p.hops + 1, a⟩ } where
  stamped := h.stamped
  sorted := h.sorted
  located := by
    have hp : p ∈ v.waiting k := by rw [head]; exact List.mem_cons_self
    intro k₁ q hq
    rcases mem_put.mp hq with hq | ⟨rfl, rfl⟩
    · exact h.located k₁ q (mem_of_mem_rest head hq)
    · refine ⟨(h.located k p hp).1, ?_⟩
      rw [← goes]
      exact Net.after_succ (h.located k p hp).2
  ended := h.ended
  accounted := by
    intro e he
    rcases h.accounted e he with ⟨k₁, q, hq, hqe⟩ | harr
    · rcases mem_rest_or head hq with rfl | hq
      · exact Or.inl ⟨k', _, mem_put.mpr (Or.inr ⟨rfl, rfl⟩), hqe⟩
      · exact Or.inl ⟨k₁, q, mem_put.mpr (Or.inl hq), hqe⟩
    · exact Or.inr harr
  queued := by
    have hp : p ∈ v.waiting k := by rw [head]; exact List.mem_cons_self
    intro k₁
    by_cases hk : k₁ = k'
    · subst hk
      simp only [put, Function.update_self]
      rw [List.pairwise_append]
      refine ⟨h.queued_rest head k₁, List.pairwise_singleton _ _, ?_⟩
      intro q hq p' hp' hsame hhops
      rw [List.mem_singleton.mp hp'] at hsame hhops ⊢
      -- `q` came here earlier, so it was ahead of the packet that comes now
      exact h.ahead k p hp k₁ q (mem_of_mem_rest head hq) hsame.symm (by dsimp only at hhops; omega)
    · simp only [put, Function.update_of_ne hk]
      exact h.queued_rest head k₁
  ahead := by
    have hp : p ∈ v.waiting k := by rw [head]; exact List.mem_cons_self
    intro k₁ q hq k₂ r hr hsame hlt
    rcases mem_put.mp hq with hq | ⟨-, rfl⟩
    · rcases mem_put.mp hr with hr | ⟨-, rfl⟩
      · exact h.ahead k₁ q (mem_of_mem_rest head hq) k₂ r (mem_of_mem_rest head hr) hsame hlt
      · exact h.head_oldest head hq hsame.symm (Nat.le_of_lt_succ hlt)
    · rcases mem_put.mp hr with hr | ⟨-, rfl⟩
      · exact h.ahead k p hp k₂ r (mem_of_mem_rest head hr) hsame (Nat.lt_of_succ_lt hlt)
      · exact absurd hlt (Nat.lt_irrefl _)
  gone := by
    have hp : p ∈ v.waiting k := by rw [head]; exact List.mem_cons_self
    intro b hb k₁ q hq hsame
    rcases mem_put.mp hq with hq | ⟨-, rfl⟩
    · exact h.gone b hb k₁ q (mem_of_mem_rest head hq) hsame
    · exact h.gone b hb k p hp hsame
  inTurn := h.inTurn

theorem arrive (h : Inv N v) {k : κ} {p : Packet ι α} {rest : List (Packet ι α)} {d : δ}
    (head : v.waiting k = p :: rest) (goes : N.pass k p.payload = some (.inr d)) : Inv N
    { v with waiting := Function.update v.waiting k rest
             arrived := v.arrived ++ [(p.entry, d)] } where
  stamped := h.stamped
  sorted := h.sorted
  located := fun k₁ q hq => h.located k₁ q (mem_of_mem_rest head hq)
  ended := by
    have hp : p ∈ v.waiting k := by rw [head]; exact List.mem_cons_self
    intro b hb
    rcases List.mem_append.mp hb with hb | hb
    · exact h.ended b hb
    · rw [List.mem_singleton.mp hb, ← goes]
      exact ⟨(h.located k p hp).1, p.hops + 1, Net.after_succ (h.located k p hp).2⟩
  accounted := by
    intro e he
    rcases h.accounted e he with ⟨k₁, q, hq, hqe⟩ | ⟨d', harr⟩
    · rcases mem_rest_or head hq with rfl | hq
      · exact Or.inr ⟨d, List.mem_append_right _ (by rw [hqe]; exact List.mem_cons_self)⟩
      · exact Or.inl ⟨k₁, q, hq, hqe⟩
    · exact Or.inr ⟨d', List.mem_append_left _ harr⟩
  queued := h.queued_rest head
  ahead := fun k₁ q hq k₂ r hr =>
    h.ahead k₁ q (mem_of_mem_rest head hq) k₂ r (mem_of_mem_rest head hr)
  gone := by
    have hp : p ∈ v.waiting k := by rw [head]; exact List.mem_cons_self
    intro b hb k₁ q hq hsame
    rcases List.mem_append.mp hb with hb | hb
    · exact h.gone b hb k₁ q (mem_of_mem_rest head hq) hsame
    · rw [List.mem_singleton.mp hb] at hsame ⊢
      rcases Nat.lt_or_ge p.hops q.hops with hlt | hle
      · -- the way of the arriving packet ends here, so none on the same lanes is further
        have hend : N.after p.entry.item (p.hops + 1) = some (.inr d) := by
          rw [← goes]
          exact Net.after_succ (h.located k p hp).2
        have hin := Net.laneAfter_ne_none (h.located k₁ q (mem_of_mem_rest head hq)).2 hlt
        rw [← hsame, Nat.succ_eq_add_one, Net.laneAfter_arrived hend] at hin
        exact absurd rfl hin
      · exact h.head_oldest head hq hsame hle
  inTurn := by
    have hp : p ∈ v.waiting k := by rw [head]; exact List.mem_cons_self
    rw [List.pairwise_append]
    refine ⟨h.inTurn, List.pairwise_singleton _ _, ?_⟩
    intro b hb b' hb' hsame
    rw [List.mem_singleton.mp hb'] at hsame ⊢
    exact h.gone b hb k p hp hsame

/-- **Order is kept by every move.** -/
theorem moves (h : Inv N v) (hm : Moves N v v') : Inv N v' := by
  cases hm with
  | issue i => exact h.issue i
  | pass head goes => exact h.pass head goes
  | arrive head goes => exact h.arrive head goes

theorem run {xs : List (Act ι κ)} (h : N.machine.Meets KeepsOrder xs) :
    Inv N (N.machine.run xs).view := by
  have hinv : Bounded (N.machine.run xs) ∧ Inv N (N.machine.run xs).view := by
    apply Machine.invariant (P := fun s => Bounded s ∧ Inv N s.view) ?_ ?_ xs h
    · exact ⟨fun _ => Nat.le_refl _, init N⟩
    · rintro s x ⟨hb, hs⟩ hx
      obtain ⟨hb', hview⟩ := view_next (N := N) hb hx
      refine ⟨hb', ?_⟩
      rcases hview with heq | hm
      · have : Inv N (N.next s x).view := by rwa [heq]
        exact this
      · exact hs.moves hm
  exact hinv.2

end Inv

/-- Of two lists in order, one in the other and closed towards the front, it is a beginning. -/
theorem prefix_of_sorted {β : Type u} {f : β → Nat} :
    ∀ {as bs : List β}, as.Pairwise (fun a b => f a < f b) → bs.Pairwise (fun a b => f a < f b) →
      (∀ a ∈ as, a ∈ bs) → (∀ a ∈ as, ∀ b ∈ bs, f b < f a → b ∈ as) → as <+: bs
  | [], _, _, _, _, _ => List.nil_prefix
  | a :: as, [], _, _, hsub, _ => absurd (hsub a List.mem_cons_self) List.not_mem_nil
  | a :: as, b :: bs, has, hbs, hsub, hclosed => by
    rw [List.pairwise_cons] at has hbs
    have hab : a = b := by
      rcases List.mem_cons.mp (hsub a List.mem_cons_self) with heq | ha
      · exact heq
      · have hlt := hbs.1 a ha
        rcases List.mem_cons.mp (hclosed a List.mem_cons_self b List.mem_cons_self hlt) with heq | hb
        · exact heq.symm
        · have := has.1 b hb
          omega
    subst hab
    rw [List.prefix_cons_inj]
    apply prefix_of_sorted has.2 hbs.2
    · intro c hc
      rcases List.mem_cons.mp (hsub c (List.mem_cons_of_mem _ hc)) with rfl | hc'
      · exact absurd (has.1 c hc) (Nat.lt_irrefl _)
      · exact hc'
    · intro c hc d hd hlt
      have hd' := hclosed c (List.mem_cons_of_mem _ hc) d (List.mem_cons_of_mem _ hd) hlt
      rcases List.mem_cons.mp hd' with rfl | hd'
      · exact absurd (hbs.1 d hd) (Nat.lt_irrefl _)
      · exact hd'

/-- **Packets that pass the same lanes arrive in the order they were issued in.**  The ones that have
arrived are the first that were issued. -/
theorem in_order (C : ι → Prop) [DecidablePred C] (hC : ∀ i j, C i → C j → N.SameLanes i j)
    {xs : List (Act ι κ)} (h : N.machine.Meets KeepsOrder xs) :
    ((N.machine.run xs).arrived.filter fun a => C a.1.item).map Prod.fst <+:
      (N.machine.run xs).issued.filter fun e => C e.item := by
  have hinv := Inv.run h
  apply prefix_of_sorted (f := Entry.stamp)
  · rw [List.pairwise_map]
    refine List.Pairwise.imp_of_mem ?_ (hinv.inTurn.filter _)
    intro a b ha hb hab
    simp only [List.mem_filter, decide_eq_true_eq] at ha hb
    exact hab (hC _ _ ha.2 hb.2)
  · exact hinv.sorted.filter _
  · intro e he
    simp only [List.mem_map, List.mem_filter, decide_eq_true_eq] at he ⊢
    obtain ⟨a, ⟨ha, hCa⟩, rfl⟩ := he
    exact ⟨(hinv.ended a ha).1, hCa⟩
  · intro e he e' he' hlt
    simp only [List.mem_map, List.mem_filter, decide_eq_true_eq] at he he' ⊢
    obtain ⟨a, ⟨ha, hCa⟩, rfl⟩ := he
    rcases hinv.accounted e' he'.1 with ⟨k, p, hp, rfl⟩ | ⟨d, hd⟩
    · have := hinv.gone a ha k p hp (hC _ _ hCa he'.2)
      omega
    · exact ⟨(e', d), ⟨hd, he'.2⟩, rfl⟩

end Queues

end FifoNet
