import CachePool.Barrier.Cluster
import CachePool.Lib.KeyOrder

/-!
# The read channels of the cluster barrier

The memory side of a port answers reads in any order between ids and in order within one, a beat at a time,
and keeps a beat it presents until it is taken.  Between it and the tile the barrier puts in its own beat,
in `Take` in every cycle in which the memory shows none.

* `PortReads` — what a port has accepted, what waits and what was returned; `next` is one cycle of all ports.
* `Stable`, `OrderKept` — a payload that is not taken stays; the reads of an id are answered in their order.
* `PortInv` — what is owed in each state of the port; `payload_of_beat` ties the beats to the payloads on `r`.
* `Quiet`, `OldestTaken` — the memory shows nothing while the barrier's beat waits for the tile; what a tile
  takes answers the oldest read of its id.
* `readChannel_iff` — the first two hold in all cycles of a run exactly when the last two do.
-/

set_option autoImplicit false

namespace CachePool

namespace Barrier

/-- A beat owed to a tile; `num` counts the reads accepted before its own on the port, and `barrier` marks the
answer to a request the barrier absorbed. -/
structure Beat where
  num : Nat
  id : Nat
  user : Nat
  last : Bool
  barrier : Bool
  deriving DecidableEq, Repr

/-- The inputs of one port: the tile's `ar`, `ar.len` and `r_ready`, the memory side's `ar_ready`, and the id
whose oldest read it answers next, with the data. -/
structure PortCycle where
  ar : Option ArChan
  len : Nat
  rReady : Bool
  arReady : Bool
  answer : Option (Nat × BitVec 32)

structure ReadCycle (n : Nat) where
  port : Fin n → PortCycle
  barrierI : Fin n → Bool

/-- The reads of one port.  `held` is what the memory side presents and the tile has not taken, `offered` the
payload the tile was shown in the last cycle and did not take. -/
structure PortReads where
  count : Nat
  accepted : List Beat
  waiting : List Beat
  returned : List Beat
  held : Option (Beat × BitVec 32)
  offered : Option RChan

structure ReadSys (n : Nat) where
  barrier : ClusterBarrier n
  port : Fin n → PortReads

/-- The beats of an ordinary read. -/
def burst (num : Nat) (ar : ArChan) (len : Nat) : List Beat :=
  List.replicate len ⟨num, ar.id, ar.user, false, false⟩ ++ [⟨num, ar.id, ar.user, true, false⟩]

/-- The memory side's beat on `r`. -/
def payload (h : Beat × BitVec 32) : RChan := ⟨h.1.id, h.1.user, h.2, h.1.last⟩

/-- The barrier's beat on `r`. -/
def Info.payload (info : Info) : RChan := ⟨info.id, info.user, 0, true⟩

/-- The beat is the whole answer to the request the information is kept of. -/
def Beat.Answers (b : Beat) (info : Info) : Prop := b.id = info.id ∧ b.user = info.user ∧ b.last = true

namespace ReadSys

variable {n : Nat} (barrierAddr : BitVec 32)

def reset (n : Nat) : ReadSys n := ⟨ClusterBarrier.reset n, fun _ => ⟨0, [], [], [], none, none⟩⟩

/-- What the barrier sees of a cycle besides `r`. -/
def requests (x : ReadCycle n) : ClusterIn n where
  ar i := (x.port i).ar
  rReady i := (x.port i).rReady
  arReady i := (x.port i).arReady
  r _ := none
  barrierI := x.barrierI

/-- The beats of the read accepted in this cycle: a burst if it is passed on, one beat if it is absorbed. -/
def owed (s : ReadSys n) (x : ReadCycle n) (i : Fin n) : List Beat :=
  match (x.port i).ar with
  | none => []
  | some ar =>
    if s.barrier.arReadyO barrierAddr (requests x) i then
      if (s.barrier.arO barrierAddr (requests x) i).isSome then burst (s.port i).count ar (x.port i).len
      else [⟨(s.port i).count, ar.id, ar.user, true, true⟩]
    else []

/-- The beats owed to the tile in this cycle. -/
def avail (s : ReadSys n) (x : ReadCycle n) (i : Fin n) : List Beat :=
  (s.port i).waiting ++ s.owed barrierAddr x i

/-- What the memory side presents: what it held back, or the oldest beat of the id it answers. -/
def shown (s : ReadSys n) (x : ReadCycle n) (i : Fin n) : Option (Beat × BitVec 32) :=
  match (s.port i).held, (x.port i).answer with
  | some h, _ => some h
  | none, none => none
  | none, some (id, data) =>
    (KeyOrder.oldest Beat.id id (KeyOrder.ofKey Beat.barrier false (s.avail barrierAddr x i))).map (·, data)

/-- The inputs of the barrier. -/
def cycle (s : ReadSys n) (x : ReadCycle n) : ClusterIn n :=
  { requests x with r := fun i => (s.shown barrierAddr x i).map payload }

/-- The beat that the payload on `r` stands for. -/
def beatO (s : ReadSys n) (x : ReadCycle n) (i : Fin n) : Option Beat :=
  if s.barrier.answers (s.cycle barrierAddr x) i then
    KeyOrder.oldest Beat.barrier true (s.avail barrierAddr x i)
  else (s.shown barrierAddr x i).map Prod.fst

/-- The beat the tile takes. -/
def taken (s : ReadSys n) (x : ReadCycle n) (i : Fin n) : Option Beat :=
  if (x.port i).rReady then s.beatO barrierAddr x i else none

def nextPort (s : ReadSys n) (x : ReadCycle n) (i : Fin n) : PortReads where
  count := if s.owed barrierAddr x i = [] then (s.port i).count else (s.port i).count + 1
  accepted := (s.port i).accepted ++ s.owed barrierAddr x i
  waiting :=
    match s.taken barrierAddr x i with
    | some b => (s.avail barrierAddr x i).erase b
    | none => s.avail barrierAddr x i
  returned := (s.port i).returned ++ (s.taken barrierAddr x i).toList
  held := if (x.port i).rReady then none else s.shown barrierAddr x i
  offered := if (x.port i).rReady then none else s.barrier.rO (s.cycle barrierAddr x) i

def next (s : ReadSys n) (x : ReadCycle n) : ReadSys n where
  barrier := s.barrier.next barrierAddr (s.cycle barrierAddr x)
  port := s.nextPort barrierAddr x

def machine (n : Nat) (barrierAddr : BitVec 32) : Machine (ReadSys n) (ReadCycle n) where
  init := reset n
  next := next barrierAddr

/-! ## What the channel owes, and when it gives it -/

/-- What was shown and not taken is shown again. -/
def Stable (s : ReadSys n) (x : ReadCycle n) : Prop :=
  ∀ i p, (s.port i).offered = some p → s.barrier.rO (s.cycle barrierAddr x) i = some p

/-- The reads of an id have been answered in the order they were accepted in. -/
def OrderKept (s : ReadSys n) : Prop :=
  ∀ i, KeyOrder.InOrder Beat.id (s.port i).accepted (s.port i).returned

/-- Where the tile was shown the barrier's beat and did not take it, the memory side shows nothing else. -/
def Quiet (s : ReadSys n) (x : ReadCycle n) (i : Fin n) : Prop :=
  (s.port i).held = none → ∀ p h, (s.port i).offered = some p → s.shown barrierAddr x i = some h →
    payload h = p

/-- What the tile takes answers the oldest read of its id: not the barrier request if the memory side shows
it, the barrier request if the barrier does. -/
def OldestTaken (s : ReadSys n) (x : ReadCycle n) (i : Fin n) : Prop :=
  (x.port i).rReady = true →
    match s.shown barrierAddr x i with
    | some h => ∀ b, KeyOrder.oldest Beat.id h.1.id (s.avail barrierAddr x i) = some b → b.barrier = false
    | none => s.barrier.stateQ i = .Take →
      ∀ b, KeyOrder.oldest Beat.id (s.barrier.infoQ i).id (s.avail barrierAddr x i) = some b →
        b.barrier = true

variable {barrierAddr} {s : ReadSys n} {x : ReadCycle n} {i : Fin n}

/-! ## What one port shows -/

@[simp] theorem cycle_r : (s.cycle barrierAddr x).r i = (s.shown barrierAddr x i).map payload := rfl

theorem answers_cycle : s.barrier.answers (s.cycle barrierAddr x) i =
    (decide (s.barrier.stateQ i = .Take) && (s.shown barrierAddr x i).isNone) := by
  simp [ClusterBarrier.answers]

theorem shown_of_held {h : Beat × BitVec 32} (hh : (s.port i).held = some h) :
    s.shown barrierAddr x i = some h := by
  simp only [shown, hh]

theorem rO_of_shown {h : Beat × BitVec 32} (hs : s.shown barrierAddr x i = some h) :
    s.barrier.rO (s.cycle barrierAddr x) i = some (payload h) := by
  simp [ClusterBarrier.rO, answers_cycle, hs]

theorem rO_of_silent (hs : s.shown barrierAddr x i = none) :
    s.barrier.rO (s.cycle barrierAddr x) i =
      if s.barrier.stateQ i = .Take then some (s.barrier.infoQ i).payload else none := by
  simp [ClusterBarrier.rO, answers_cycle, hs, Info.payload]

theorem beatO_of_shown {h : Beat × BitVec 32} (hs : s.shown barrierAddr x i = some h) :
    s.beatO barrierAddr x i = some h.1 := by
  simp [beatO, answers_cycle, hs]

theorem beatO_of_silent (hs : s.shown barrierAddr x i = none) :
    s.beatO barrierAddr x i =
      if s.barrier.stateQ i = .Take then KeyOrder.oldest Beat.barrier true (s.avail barrierAddr x i)
      else none := by
  simp [beatO, answers_cycle, hs]

/-- The request the barrier absorbs is owed its one beat. -/
theorem owed_of_absorbed {ar : ArChan} (hs : s.barrier.stateQ i = .Idle)
    (hr : ClusterBarrier.barrierReq barrierAddr (requests x) i = some ar) :
    s.owed barrierAddr x i = [⟨(s.port i).count, ar.id, ar.user, true, true⟩] := by
  have har : (x.port i).ar = some ar := (Option.filter_eq_some_iff.mp hr).1
  simp [owed, har, ClusterBarrier.arReadyO, ClusterBarrier.arO, hs, hr]

theorem ofKey_burst (num : Nat) (ar : ArChan) (len : Nat) :
    KeyOrder.ofKey Beat.barrier true (burst num ar len) = [] := by
  simp [KeyOrder.ofKey, burst]

/-- Any other read is an ordinary one. -/
theorem owed_of_passed
    (hp : s.barrier.stateQ i ≠ .Idle ∨ ClusterBarrier.barrierReq barrierAddr (requests x) i = none) :
    KeyOrder.ofKey Beat.barrier true (s.owed barrierAddr x i) = [] := by
  cases har : (x.port i).ar with
  | none => simp [owed, har, KeyOrder.ofKey]
  | some ar =>
    have hO : s.barrier.arO barrierAddr (requests x) i = some ar := by
      rw [← har]
      unfold ClusterBarrier.arO
      split
      · next hs hr => simp [hs, hr] at hp
      · rfl
    simp only [owed, har, hO, Option.isSome_some, if_true]
    split
    · exact ofKey_burst ..
    · rfl

/-! ## What every run keeps -/

/-- A port between two cycles: while the barrier holds a request one beat of its id is owed for it, otherwise
none; the memory side holds the oldest read of an id; what was offered is its beat or the barrier's. -/
structure PortInv (s : ReadSys n) (i : Fin n) : Prop where
  split : KeyOrder.Split Beat.id (s.port i).accepted (s.port i).returned (s.port i).waiting
  own : s.barrier.stateQ i = .Wait ∨ s.barrier.stateQ i = .Take →
    ∃ b, KeyOrder.ofKey Beat.barrier true (s.port i).waiting = [b] ∧ b.Answers (s.barrier.infoQ i)
  free : s.barrier.stateQ i = .Idle ∨ s.barrier.stateQ i = .Global →
    KeyOrder.ofKey Beat.barrier true (s.port i).waiting = []
  held : ∀ h, (s.port i).held = some h →
    KeyOrder.oldest Beat.id h.1.id (KeyOrder.ofKey Beat.barrier false (s.port i).waiting) = some h.1
  offered : ∀ p, (s.port i).offered = some p → (∃ h, (s.port i).held = some h ∧ p = payload h) ∨
    (s.port i).held = none ∧ s.barrier.stateQ i = .Take ∧ p = (s.barrier.infoQ i).payload

theorem portInv_reset (i : Fin n) : (reset n).PortInv i where
  split := KeyOrder.Split.nil
  own := by
    rintro (h | h) <;> cases h
  free _ := rfl
  held := by
    intro h hh
    cases hh
  offered := by
    intro p hp
    cases hp

namespace PortInv

theorem shown_oldest (h : s.PortInv i) {q : Beat × BitVec 32} (hs : s.shown barrierAddr x i = some q) :
    KeyOrder.oldest Beat.id q.1.id (KeyOrder.ofKey Beat.barrier false (s.avail barrierAddr x i)) =
      some q.1 := by
  cases hheld : (s.port i).held with
  | some q' =>
    rw [shown_of_held hheld] at hs
    cases hs
    rw [avail, KeyOrder.ofKey_append]
    exact KeyOrder.oldest_append (h.held q hheld) _
  | none =>
    cases hans : (x.port i).answer with
    | none => simp [shown, hheld, hans] at hs
    | some a =>
      simp only [shown, hheld, hans, Option.map_eq_some_iff] at hs
      obtain ⟨b, hb, rfl⟩ := hs
      have hid : b.id = a.1 := KeyOrder.key_of_oldest hb
      rw [hid]
      exact hb

theorem split_avail (h : s.PortInv i) :
    KeyOrder.Split Beat.id ((s.port i).accepted ++ s.owed barrierAddr x i) (s.port i).returned
      (s.avail barrierAddr x i) :=
  h.split.accept _

/-- While the barrier holds a request its beat stays the only one owed for a barrier request. -/
theorem own_avail (h : s.PortInv i) (barrierAddr : BitVec 32) (x : ReadCycle n)
    (hs : s.barrier.stateQ i = .Wait ∨ s.barrier.stateQ i = .Take) :
    ∃ b, KeyOrder.ofKey Beat.barrier true (s.avail barrierAddr x i) = [b] ∧
      b.Answers (s.barrier.infoQ i) := by
  obtain ⟨b, hb, hinfo⟩ := h.own hs
  refine ⟨b, ?_, hinfo⟩
  have hidle : s.barrier.stateQ i ≠ .Idle := by
    rcases hs with hs | hs <;> rw [hs] <;> decide
  rw [avail, KeyOrder.ofKey_append, hb, owed_of_passed (Or.inl hidle), List.append_nil]

theorem shown_kind (h : s.PortInv i) {q : Beat × BitVec 32} (hs : s.shown barrierAddr x i = some q) :
    q.1.barrier = false :=
  of_decide_eq_true (List.mem_filter.mp (List.mem_of_find?_eq_some (h.shown_oldest hs))).2

/-- The beat behind the barrier's answer is the one owed for the request it holds. -/
theorem own_beat (h : s.PortInv i) (barrierAddr : BitVec 32) (x : ReadCycle n)
    (ht : s.barrier.stateQ i = .Take) :
    ∃ b, KeyOrder.oldest Beat.barrier true (s.avail barrierAddr x i) = some b ∧
      KeyOrder.ofKey Beat.barrier true (s.avail barrierAddr x i) = [b] ∧
      b.Answers (s.barrier.infoQ i) := by
  obtain ⟨b, hown, hinfo⟩ := h.own_avail barrierAddr x (Or.inr ht)
  refine ⟨b, ?_, hown, hinfo⟩
  rw [← KeyOrder.head?_ofKey, hown]
  rfl

theorem beat_kind (h : s.PortInv i) {b : Beat} (hb : s.beatO barrierAddr x i = some b) :
    b.barrier = s.barrier.answers (s.cycle barrierAddr x) i := by
  unfold beatO at hb
  split at hb
  · next hans =>
    rw [hans]
    exact KeyOrder.key_of_oldest hb
  · next hans =>
    obtain ⟨q, hq, rfl⟩ := Option.map_eq_some_iff.mp hb
    rw [h.shown_kind hq, Bool.eq_false_of_not_eq_true hans]

/-- The beat on `r` is the oldest of its id among those of its kind. -/
theorem beat_oldest (h : s.PortInv i) {b : Beat} (hb : s.beatO barrierAddr x i = some b) :
    KeyOrder.oldest Beat.id b.id (KeyOrder.ofKey Beat.barrier b.barrier (s.avail barrierAddr x i)) =
      some b := by
  cases hs : s.shown barrierAddr x i with
  | some q =>
    rw [beatO_of_shown hs] at hb
    cases hb
    rw [h.shown_kind hs]
    exact h.shown_oldest hs
  | none =>
    rw [beatO_of_silent hs] at hb
    split at hb
    · next ht =>
      have hkind : b.barrier = true := KeyOrder.key_of_oldest hb
      obtain ⟨b', hbeat, hown, _⟩ := h.own_beat barrierAddr x ht
      rw [hbeat] at hb
      cases hb
      rw [hkind, hown]
      simp [KeyOrder.oldest]
    · cases hb

/-- The payload on `r` is that of the beat it stands for. -/
theorem payload_of_beat (h : s.PortInv i) {p : RChan}
    (hp : s.barrier.rO (s.cycle barrierAddr x) i = some p) :
    ∃ b, s.beatO barrierAddr x i = some b ∧ p.id = b.id ∧ p.user = b.user ∧ p.last = b.last := by
  cases hs : s.shown barrierAddr x i with
  | some q =>
    rw [rO_of_shown hs] at hp
    cases hp
    exact ⟨q.1, beatO_of_shown hs, rfl, rfl, rfl⟩
  | none =>
    rw [rO_of_silent hs] at hp
    split at hp
    · next ht =>
      cases hp
      obtain ⟨b, hbeat, _, hid, huser, hlast⟩ := h.own_beat barrierAddr x ht
      refine ⟨b, ?_, hid.symm, huser.symm, hlast.symm⟩
      rw [beatO_of_silent hs, if_pos ht, hbeat]
    · cases hp

/-- What the tile takes is taken in order exactly when it is the oldest beat of its id. -/
theorem oldestTaken_iff (h : s.PortInv i) : s.OldestTaken barrierAddr x i ↔
    ∀ b, s.taken barrierAddr x i = some b →
      KeyOrder.oldest Beat.id b.id (s.avail barrierAddr x i) = some b := by
  have hkind : ∀ b, s.beatO barrierAddr x i = some b →
      (KeyOrder.oldest Beat.id b.id (s.avail barrierAddr x i) = some b ↔
        ∀ y, KeyOrder.oldest Beat.id b.id (s.avail barrierAddr x i) = some y → y.barrier = b.barrier) :=
    fun b hb => KeyOrder.oldest_iff_of_kind (h.beat_oldest hb)
  unfold OldestTaken taken
  cases hr : (x.port i).rReady with
  | false => simp
  | true =>
    cases hs : s.shown barrierAddr x i with
    | some q =>
      rw [beatO_of_shown hs] at hkind ⊢
      simpa [h.shown_kind hs] using (hkind q.1 rfl).symm
    | none =>
      rw [beatO_of_silent hs] at hkind ⊢
      by_cases ht : s.barrier.stateQ i = .Take
      · obtain ⟨b, hbeat, _, hid, _⟩ := h.own_beat barrierAddr x ht
        have hb : b.barrier = true := KeyOrder.key_of_oldest hbeat
        rw [if_pos ht, hbeat] at hkind
        simpa [ht, hbeat, hb, hid] using (hkind b rfl).symm
      · simp [ht]

theorem inOrder_iff (h : s.PortInv i) :
    KeyOrder.InOrder Beat.id (s.nextPort barrierAddr x i).accepted (s.nextPort barrierAddr x i).returned ↔
      s.OldestTaken barrierAddr x i := by
  rw [h.oldestTaken_iff]
  cases ht : s.taken barrierAddr x i with
  | none => simpa [nextPort, ht] using h.split_avail.inOrder
  | some b => simpa [nextPort, ht] using h.split_avail.inOrder_give_iff

theorem stable_iff (h : s.PortInv i) :
    (∀ p, (s.port i).offered = some p → s.barrier.rO (s.cycle barrierAddr x) i = some p) ↔
      s.Quiet barrierAddr x i := by
  constructor
  · intro hst _ p q hp hq
    have hO := hst p hp
    rw [rO_of_shown hq] at hO
    exact Option.some.inj hO
  · intro hquiet p hp
    rcases h.offered p hp with ⟨q, hheld, rfl⟩ | ⟨hheld, ht, rfl⟩
    · rw [rO_of_shown (shown_of_held hheld)]
    · cases hq : s.shown barrierAddr x i with
      | some q => rw [rO_of_shown hq, hquiet hheld _ q hp hq]
      | none => rw [rO_of_silent hq, if_pos ht]

theorem split_next (h : s.PortInv i) (hT : s.OldestTaken barrierAddr x i) :
    KeyOrder.Split Beat.id (s.nextPort barrierAddr x i).accepted (s.nextPort barrierAddr x i).returned
      (s.nextPort barrierAddr x i).waiting := by
  cases ht : s.taken barrierAddr x i with
  | none => simpa [nextPort, ht] using h.split_avail
  | some b => simpa [nextPort, ht] using h.split_avail.give (h.oldestTaken_iff.mp hT b ht)

/-- What is owed for barrier requests stays owed until the tile takes the barrier's beat. -/
theorem own_kept (h : s.PortInv i)
    (hk : (s.barrier.answers (s.cycle barrierAddr x) i && (x.port i).rReady) = false) :
    KeyOrder.ofKey Beat.barrier true (s.nextPort barrierAddr x i).waiting =
      KeyOrder.ofKey Beat.barrier true (s.avail barrierAddr x i) := by
  cases ht : s.taken barrierAddr x i with
  | none => simp only [nextPort, ht]
  | some b =>
    simp only [nextPort, ht]
    apply KeyOrder.ofKey_erase_other
    unfold taken at ht
    split at ht
    · next hr =>
      rw [h.beat_kind ht]
      simpa [hr] using hk
    · cases ht

/-- When the tile takes the barrier's beat, nothing more is owed for barrier requests. -/
theorem own_given (h : s.PortInv i) (ht : s.barrier.stateQ i = .Take)
    (hk : (s.barrier.answers (s.cycle barrierAddr x) i && (x.port i).rReady) = true) :
    KeyOrder.ofKey Beat.barrier true (s.nextPort barrierAddr x i).waiting = [] := by
  obtain ⟨hans, hr⟩ := Bool.and_eq_true_iff.mp hk
  obtain ⟨b, hbeat, hown, _⟩ := h.own_beat barrierAddr x ht
  have htaken : s.taken barrierAddr x i = some b := by
    rw [taken, if_pos hr, beatO, if_pos hans, hbeat]
  have hkind : b.barrier = true := KeyOrder.key_of_oldest hbeat
  have hold : KeyOrder.oldest Beat.barrier b.barrier (s.avail barrierAddr x i) = some b := by
    rwa [hkind]
  have hrest := KeyOrder.ofKey_of_oldest hold
  rw [hkind, hown] at hrest
  simp only [nextPort, htaken]
  exact (List.cons_inj_right b).mp hrest.symm

/-- A port without a barrier request stays without one if what it accepts is passed on. -/
theorem free_avail (h : s.PortInv i) (barrierAddr : BitVec 32) (x : ReadCycle n)
    (hs : s.barrier.stateQ i = .Idle ∨ s.barrier.stateQ i = .Global)
    (hp : s.barrier.stateQ i ≠ .Idle ∨ ClusterBarrier.barrierReq barrierAddr (requests x) i = none) :
    KeyOrder.ofKey Beat.barrier true (s.avail barrierAddr x i) = [] := by
  rw [avail, KeyOrder.ofKey_append, h.free hs, owed_of_passed hp, List.append_nil]

theorem answers_of_ne_take (hs : s.barrier.stateQ i ≠ .Take) :
    (s.barrier.answers (s.cycle barrierAddr x) i && (x.port i).rReady) = false := by
  simp [answers_cycle, hs]

/-- What is owed for barrier requests follows the state of the port. -/
theorem own_next (h : s.PortInv i) :
    (s.barrier.stateD barrierAddr (s.cycle barrierAddr x) i = .Wait ∨
        s.barrier.stateD barrierAddr (s.cycle barrierAddr x) i = .Take →
      ∃ b, KeyOrder.ofKey Beat.barrier true (s.nextPort barrierAddr x i).waiting = [b] ∧
        b.Answers (s.barrier.infoD barrierAddr (s.cycle barrierAddr x) i)) ∧
    (s.barrier.stateD barrierAddr (s.cycle barrierAddr x) i = .Idle ∨
        s.barrier.stateD barrierAddr (s.cycle barrierAddr x) i = .Global →
      KeyOrder.ofKey Beat.barrier true (s.nextPort barrierAddr x i).waiting = []) := by
  have hreq : ClusterBarrier.barrierReq barrierAddr (s.cycle barrierAddr x) i =
      ClusterBarrier.barrierReq barrierAddr (requests x) i := rfl
  have hready : (s.cycle barrierAddr x).rReady i = (x.port i).rReady := rfl
  cases hs : s.barrier.stateQ i with
  | Idle =>
    rw [h.own_kept (answers_of_ne_take (by rw [hs]; decide))]
    cases hr : ClusterBarrier.barrierReq barrierAddr (requests x) i with
    | none =>
      have hown := h.free_avail barrierAddr x (Or.inl hs) (Or.inr hr)
      simp [ClusterBarrier.stateD, hs, hreq, hr, hown]
    | some ar =>
      have hown : KeyOrder.ofKey Beat.barrier true (s.avail barrierAddr x i) =
          [⟨(s.port i).count, ar.id, ar.user, true, true⟩] := by
        rw [avail, KeyOrder.ofKey_append, h.free (Or.inl hs), owed_of_absorbed hs hr]
        rfl
      rw [hown]
      cases hb : s.barrier.barrierQ i <;>
        simp [ClusterBarrier.stateD, ClusterBarrier.infoD, hs, hreq, hr, hb, Beat.Answers]
  | Wait =>
    rw [h.own_kept (answers_of_ne_take (by rw [hs]; decide))]
    obtain ⟨b, hown, hinfo⟩ := h.own_avail barrierAddr x (Or.inl hs)
    cases ht : s.barrier.takeBarrier <;>
      simp [ClusterBarrier.stateD, ClusterBarrier.infoD, hs, hown, hinfo, ht]
  | Take =>
    cases hk : s.barrier.answers (s.cycle barrierAddr x) i && (x.port i).rReady with
    | true => simp [ClusterBarrier.stateD, hs, hready, hk, h.own_given hs hk]
    | false =>
      rw [h.own_kept hk]
      obtain ⟨b, hown, hinfo⟩ := h.own_avail barrierAddr x (Or.inr hs)
      simp [ClusterBarrier.stateD, ClusterBarrier.infoD, hs, hready, hk, hown, hinfo]
  | Global =>
    rw [h.own_kept (answers_of_ne_take (by rw [hs]; decide))]
    have hown := h.free_avail barrierAddr x (Or.inr hs) (Or.inl (by rw [hs]; decide))
    simp [ClusterBarrier.stateD, hs, hown]

theorem held_next (h : s.PortInv i) {q : Beat × BitVec 32}
    (hq : (s.nextPort barrierAddr x i).held = some q) :
    KeyOrder.oldest Beat.id q.1.id
      (KeyOrder.ofKey Beat.barrier false (s.nextPort barrierAddr x i).waiting) = some q.1 := by
  cases hr : (x.port i).rReady with
  | true => simp [nextPort, hr] at hq
  | false =>
    have hs : s.shown barrierAddr x i = some q := by simpa [nextPort, hr] using hq
    simpa [nextPort, taken, hr] using h.shown_oldest hs

/-- What is offered next is the memory side's beat, which it holds, or the barrier's, which stays
in `Take`. -/
theorem offered_next {p : RChan} (hp : (s.nextPort barrierAddr x i).offered = some p) :
    (∃ q, (s.nextPort barrierAddr x i).held = some q ∧ p = payload q) ∨
      (s.nextPort barrierAddr x i).held = none ∧ (s.next barrierAddr x).barrier.stateQ i = .Take ∧
        p = ((s.next barrierAddr x).barrier.infoQ i).payload := by
  cases hr : (x.port i).rReady with
  | true => simp [nextPort, hr] at hp
  | false =>
    have hO : s.barrier.rO (s.cycle barrierAddr x) i = some p := by simpa [nextPort, hr] using hp
    have hheld : (s.nextPort barrierAddr x i).held = s.shown barrierAddr x i := by simp [nextPort, hr]
    have hready : (s.cycle barrierAddr x).rReady i = false := hr
    rw [hheld]
    cases hs : s.shown barrierAddr x i with
    | some q =>
      rw [rO_of_shown hs] at hO
      cases hO
      exact Or.inl ⟨q, rfl, rfl⟩
    | none =>
      rw [rO_of_silent hs] at hO
      split at hO
      · next ht =>
        cases hO
        refine Or.inr ⟨rfl, ?_, ?_⟩
        · change s.barrier.stateD barrierAddr (s.cycle barrierAddr x) i = .Take
          simp [ClusterBarrier.stateD, ht, hready]
        · change _ = (s.barrier.infoD barrierAddr (s.cycle barrierAddr x) i).payload
          simp [ClusterBarrier.infoD, ht, hready]
      · cases hO

protected theorem next (h : s.PortInv i) (hT : s.OldestTaken barrierAddr x i) :
    (s.next barrierAddr x).PortInv i where
  split := h.split_next hT
  own := h.own_next.1
  free := h.own_next.2
  held _ hq := h.held_next hq
  offered _ hp := offered_next hp

end PortInv

/-- **When the read channel keeps its payloads and its order.**  In all cycles of a run every payload that was
not taken is shown again, and the beats of every id are returned in the order their reads were accepted in,
exactly when in all cycles the memory side shows no other payload where the barrier's beat was offered and
not taken, and what a tile takes answers the oldest read of its id: the barrier's beat is not taken ahead of
an earlier read, nor the memory side's ahead of an earlier barrier request. -/
theorem readChannel_iff (n : Nat) (barrierAddr : BitVec 32) (xs : List (ReadCycle n)) :
    (machine n barrierAddr).Meets
        (fun s x => s.Stable barrierAddr x ∧ (s.next barrierAddr x).OrderKept) xs ↔
      (machine n barrierAddr).Meets
        (fun s x => ∀ i, s.Quiet barrierAddr x i ∧ s.OldestTaken barrierAddr x i) xs := by
  apply Machine.meets_congr_upon (P := fun s => ∀ i, s.PortInv i)
  · exact portInv_reset
  · intro s x h
    rw [forall_and]
    apply and_congr
    · exact forall_congr' fun i => (h i).stable_iff
    · exact forall_congr' fun i => (h i).inOrder_iff
  · intro s x h hx i
    exact (h i).next (hx i).2

/-- A tile has a read under way and makes a barrier request.  Where it does not take the barrier's beat at
once and the memory answers in the next cycle, the answer takes the place of that beat.  Where it takes it and
both have one id, the barrier request is answered before the earlier read. -/
theorem barrier_beat_replaced :
    let cycle (ar : Option ArChan) (rReady : Bool) (answer : Option (Nat × BitVec 32)) : ReadCycle 1 :=
      ⟨fun _ => ⟨ar, 0, rReady, true, answer⟩, fun _ => false⟩
    let read := cycle (some ⟨0x80#32, 1, 0⟩) false none
    let request (id : Nat) := cycle (some ⟨0x40#32, id, 0⟩) false none
    ¬ (machine 1 0x40#32).Meets (fun s x => s.Stable 0x40#32 x)
        [read, request 2, cycle none false none, cycle none false (some (1, 5#32))] ∧
    ¬ (machine 1 0x40#32).Meets (fun s x => (s.next 0x40#32 x).OrderKept)
        [read, request 1, cycle none true none] := by
  intro cycle read request
  constructor
  · intro h
    have hstable := h [read, request 2, cycle none false none] _ [] rfl 0 ⟨2, 0, 0, true⟩ (by decide)
    exact absurd hstable (by decide)
  · intro h
    have horder := h [read, request 1] _ [] rfl 0 1
    exact absurd horder (by decide)

end ReadSys

end Barrier

end CachePool
