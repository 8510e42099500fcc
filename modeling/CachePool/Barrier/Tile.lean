import CachePool.Pkg
import CachePool.Lib.Machine

/-!
# The tile barrier (`cachepool_tile_barrier`)

The barrier sits between the core ports of a tile and what lies behind them.  Port 0 sends one barrier
request on behalf of all cores.

* `TileBarrier.stateD`, `outReqO`, `inRspO` — one cycle of the module, port by port.
* `TileSys` — the module between its cores, which hold a request until it is taken, and a downstream that
  takes requests as it likes and answers them once, in order, per port.
* `next_stateQ_of_wait` and the like — the next state of a port, state by state; `PortStep` — what a port does
  in one cycle; `global_of_next` and the like — how it gets into a state.
-/

set_option autoImplicit false

namespace CachePool

namespace Barrier

/-- `barrier_state_e`. -/
inductive BarrierState where
  | Idle
  | Wait
  | Global
  | Take
  deriving DecidableEq, Repr

/-- A request payload (`dreq_t.q`): the fields the barrier reads or writes, and the rest. -/
structure Req (α : Type) where
  addr : BitVec 32
  user : TcdmUser
  rest : α
  deriving DecidableEq, Repr

/-- A response payload (`drsp_t.p`). -/
structure Rsp (β : Type) where
  user : TcdmUser
  rest : β
  deriving DecidableEq, Repr

/-- `dreq_t`. -/
structure DReq (α : Type) where
  q : Req α
  qValid : Bool
  pReady : Bool

/-- `drsp_t`, the payload given when `p_valid`. -/
structure DRsp (β : Type) where
  qReady : Bool
  p : Option (Rsp β)

/-- `'0`. -/
def zeroUser : TcdmUser := ⟨0, 0, false, 0, false⟩

/-- The registers, `n` being `NrPorts`. -/
structure TileBarrier (n : Nat) where
  stateQ : Fin n → BarrierState
  userQ : Fin n → TcdmUser

namespace TileBarrier

variable {n : Nat} [NeZero n] {α β : Type} (barrierAddr : BitVec 32)

def reset (n : Nat) : TileBarrier n := ⟨fun _ => .Idle, fun _ => zeroUser⟩

/-- `local_barrier`: every port waits. -/
def localBarrier (s : TileBarrier n) : Bool := decide (∀ i, s.stateQ i = .Wait)

/-- `done_barrier[i]`. -/
def doneBarrier (s : TileBarrier n) (outRsp : Fin n → DRsp β) (i : Fin n) : Bool :=
  s.stateQ i = .Global && (i ≠ 0 || (outRsp i).p.isSome)

/-- `take_barrier`. -/
def takeBarrier (s : TileBarrier n) (outRsp : Fin n → DRsp β) : Bool :=
  decide (∀ i, s.doneBarrier outRsp i = true)

/-- The port shows a barrier request. -/
def isBarrierReq (r : DReq α) : Bool := r.qValid && r.q.addr = barrierAddr

/-- The payload of `out_req_o[i].q`. -/
def outQ (q : Req α) (i : Fin n) : Req α := { q with user := { q.user with coreId := i } }

/-- `out_req_o[i].q_valid`. -/
def outQValid (s : TileBarrier n) (r : DReq α) (i : Fin n) : Bool :=
  match s.stateQ i with
  | .Idle => r.qValid && !isBarrierReq barrierAddr r
  | .Wait => s.localBarrier && decide (i = 0)
  | .Global => false
  | .Take => r.qValid

/-- `out_req_o[i]`. -/
def outReqO (s : TileBarrier n) (r : DReq α) (i : Fin n) : DReq α :=
  ⟨outQ r.q i, s.outQValid barrierAddr r i, r.pReady⟩

/-- `in_rsp_o[i].q_ready`. -/
def inQReady (s : TileBarrier n) (r : DReq α) (outRsp : Fin n → DRsp β) (i : Fin n) : Bool :=
  match s.stateQ i with
  | .Idle => (outRsp i).qReady && !isBarrierReq barrierAddr r
  | .Wait => false
  | .Global => s.takeBarrier outRsp
  | .Take => false

/-- `in_rsp_o[i].p`, when valid. -/
def inP [Zero β] (s : TileBarrier n) (outRsp : Fin n → DRsp β) (i : Fin n) : Option (Rsp β) :=
  match s.stateQ i with
  | .Global => if i = 0 then none else (outRsp i).p
  | .Take => some ⟨s.userQ i, 0⟩
  | _ => (outRsp i).p

/-- `state_d[i]`. -/
def stateD (s : TileBarrier n) (r : DReq α) (outRsp : Fin n → DRsp β) (i : Fin n) : BarrierState :=
  match s.stateQ i with
  | .Idle => if isBarrierReq barrierAddr r then .Wait else .Idle
  | .Wait =>
    if s.localBarrier then
      -- port 0 moves on when its request is taken, the other ports at once
      if i = 0 then if (outRsp i).qReady then .Global else .Wait else .Global
    else .Wait
  | .Global => if s.takeBarrier outRsp then .Take else .Global
  | .Take => if r.pReady then .Idle else .Take

/-- `user_d[i]`. -/
def userD (s : TileBarrier n) (r : DReq α) (outRsp : Fin n → DRsp β) (i : Fin n) : TcdmUser :=
  match s.stateQ i with
  | .Global => if s.takeBarrier outRsp then (outQ r.q i).user else s.userQ i
  | .Take => if r.pReady then zeroUser else s.userQ i
  | _ => s.userQ i

end TileBarrier

/-! ## The barrier with its cores and its downstream -/

/-- A request taken by the downstream, with the answer it will get. -/
structure Entry (α β : Type) where
  req : Req α
  answer : Rsp β
  deriving DecidableEq, Repr

/-- The registers; the request each core holds at its port; the requests each downstream port has taken
and not answered, and whether it holds the answer to the oldest.  Recorded by the observer for each port,
oldest first: the requests taken from the core, those taken by the downstream, those whose answer has been
taken from it, the answers the core has taken, the number of barrier responses the core has taken; and the
answer on port 0 at each release. -/
structure TileSys (n : Nat) (α β : Type) where
  regs : TileBarrier n
  held : Fin n → Option (Req α)
  pending : Fin n → List (Entry α β)
  showing : Fin n → Bool
  accepted : Fin n → List (Req α)
  forwarded : Fin n → List (Entry α β)
  answered : Fin n → List (Entry α β)
  passed : Fin n → List (Rsp β)
  barrierRsps : Fin n → Nat
  granted : List (Entry α β)

/-- One cycle: the cores' new requests (a core that holds one shows it again) and `p_ready`; the
downstream's `q_ready`, whether it begins to show the answer to its oldest request (it shows it until it is
taken), and the answer a request taken now will get. -/
structure TileIn (n : Nat) (α β : Type) where
  q : Fin n → Req α
  qValid : Fin n → Bool
  pReady : Fin n → Bool
  qReady : Fin n → Bool
  pValid : Fin n → Bool
  answer : Fin n → Rsp β

namespace TileSys

variable {n : Nat} [NeZero n] {α β : Type} (barrierAddr : BitVec 32)

def reset (n : Nat) (α β : Type) : TileSys n α β where
  regs := TileBarrier.reset n
  held := fun _ => none
  pending := fun _ => []
  showing := fun _ => false
  accepted := fun _ => []
  forwarded := fun _ => []
  answered := fun _ => []
  passed := fun _ => []
  barrierRsps := fun _ => 0
  granted := []

/-- `in_req_i[i]`. -/
def inReq (s : TileSys n α β) (x : TileIn n α β) (i : Fin n) : DReq α :=
  match s.held i with
  | some r => ⟨r, true, x.pReady i⟩
  | none => ⟨x.q i, x.qValid i, x.pReady i⟩

/-- The request taken by the downstream at port `i`. -/
def newEntry (s : TileSys n α β) (x : TileIn n α β) (i : Fin n) : Option (Entry α β) :=
  let out := s.regs.outReqO barrierAddr (s.inReq x i) i
  if out.qValid && x.qReady i then some ⟨out.q, x.answer i⟩ else none

/-- The requests the downstream can answer in this cycle, one taken in this very cycle included. -/
def pool (s : TileSys n α β) (x : TileIn n α β) (i : Fin n) : List (Entry α β) :=
  s.pending i ++ (s.newEntry barrierAddr x i).toList

/-- The request whose answer the downstream shows. -/
def shown (s : TileSys n α β) (x : TileIn n α β) (i : Fin n) : Option (Entry α β) :=
  if s.showing i || x.pValid i then (s.pool barrierAddr x i).head? else none

/-- `out_rsp_i[i]`. -/
def outRsp (s : TileSys n α β) (x : TileIn n α β) (i : Fin n) : DRsp β :=
  ⟨x.qReady i, (s.shown barrierAddr x i).map (·.answer)⟩

/-- The request whose answer is taken from the downstream (`p_ready` passes the barrier unchanged). -/
def newAnswered (s : TileSys n α β) (x : TileIn n α β) (i : Fin n) : Option (Entry α β) :=
  if x.pReady i then s.shown barrierAddr x i else none

/-- What the downstream still has to answer after the cycle. -/
def left (s : TileSys n α β) (x : TileIn n α β) (i : Fin n) : List (Entry α β) :=
  match s.newAnswered barrierAddr x i with
  | some _ => (s.pool barrierAddr x i).tail
  | none => s.pool barrierAddr x i

/-- `take_barrier`. -/
def takes (s : TileSys n α β) (x : TileIn n α β) : Bool :=
  s.regs.takeBarrier (s.outRsp barrierAddr x)

/-- `in_rsp_o[i].q_ready`. -/
def ready (s : TileSys n α β) (x : TileIn n α β) (i : Fin n) : Bool :=
  s.regs.inQReady barrierAddr (s.inReq x i) (s.outRsp barrierAddr x) i

/-- The request taken from core `i`. -/
def newAccepted (s : TileSys n α β) (x : TileIn n α β) (i : Fin n) : Option (Req α) :=
  if (s.inReq x i).qValid && s.ready barrierAddr x i then some (s.inReq x i).q else none

/-! ## The requests and answers of one cycle -/

section

variable {barrierAddr} {s : TileSys n α β} {x : TileIn n α β} {i : Fin n}

omit [NeZero n] in
theorem localBarrier_iff : s.regs.localBarrier = true ↔ ∀ i, s.regs.stateQ i = .Wait :=
  decide_eq_true_iff

/-- The barrier completes iff every port has passed on to `Global` and the downstream shows an answer on
port 0. -/
theorem takes_iff : s.takes barrierAddr x = true ↔
    (∀ i, s.regs.stateQ i = .Global) ∧ (s.shown barrierAddr x 0).isSome = true := by
  unfold takes TileBarrier.takeBarrier
  rw [decide_eq_true_iff]
  constructor
  · intro h
    refine ⟨?_, ?_⟩
    · intro i
      have hi := h i
      simp only [TileBarrier.doneBarrier, Bool.and_eq_true, decide_eq_true_eq] at hi
      exact hi.1
    · have h0 := h 0
      simpa [TileBarrier.doneBarrier, outRsp] using (Bool.and_eq_true_iff.mp h0).2
  · rintro ⟨hg, hs⟩ i
    simp only [TileBarrier.doneBarrier, hg i, outRsp, Option.isSome_map]
    by_cases h0 : i = 0
    · subst h0
      simpa using hs
    · simp [h0]

theorem ready_of_wait (hs : s.regs.stateQ i = .Wait) : s.ready barrierAddr x i = false := by
  rw [ready, TileBarrier.inQReady, hs]

theorem ready_of_global (hs : s.regs.stateQ i = .Global) :
    s.ready barrierAddr x i = s.takes barrierAddr x := by
  rw [ready, TileBarrier.inQReady, hs]
  rfl

theorem ready_of_take (hs : s.regs.stateQ i = .Take) : s.ready barrierAddr x i = false := by
  rw [ready, TileBarrier.inQReady, hs]

omit [NeZero n] in
theorem inReq_of_held {r : Req α} (h : s.held i = some r) : s.inReq x i = ⟨r, true, x.pReady i⟩ := by
  rw [inReq, h]

/-- Port 0 sends the barrier request in `Wait`, no port sends anything in `Global`. -/
theorem newEntry_of_wait (hs : s.regs.stateQ i = .Wait) :
    s.newEntry barrierAddr x i =
      if s.regs.localBarrier && decide (i = 0) && x.qReady i then
        some ⟨TileBarrier.outQ (s.inReq x i).q i, x.answer i⟩
      else none := by
  simp only [newEntry, TileBarrier.outReqO, TileBarrier.outQValid, hs]

/-- The barrier request the downstream takes on port 0. -/
theorem newEntry_of_local (hl : s.regs.localBarrier = true) (hq : x.qReady 0 = true) :
    s.newEntry barrierAddr x 0 = some ⟨TileBarrier.outQ (s.inReq x 0).q (0 : Fin n), x.answer 0⟩ := by
  rw [newEntry_of_wait (localBarrier_iff.mp hl 0), hl, hq]
  rfl

theorem newEntry_of_global (hs : s.regs.stateQ i = .Global) : s.newEntry barrierAddr x i = none := by
  simp only [newEntry, TileBarrier.outReqO, TileBarrier.outQValid, hs, Bool.false_and,
    Bool.false_eq_true, if_false]

theorem pool_of_no_newEntry (h : s.newEntry barrierAddr x i = none) :
    s.pool barrierAddr x i = s.pending i := by
  rw [pool, h, Option.toList_none, List.append_nil]

theorem left_of_not_answered (h : s.newAnswered barrierAddr x i = none) :
    s.left barrierAddr x i = s.pool barrierAddr x i := by
  rw [left, h]

theorem head_of_newAnswered {e : Entry α β} (h : s.newAnswered barrierAddr x i = some e) :
    x.pReady i = true ∧ s.shown barrierAddr x i = some e ∧
      s.pool barrierAddr x i = e :: s.left barrierAddr x i := by
  have hleft : s.left barrierAddr x i = (s.pool barrierAddr x i).tail := by rw [left, h]
  unfold newAnswered at h
  split at h
  · rename_i hp
    refine ⟨hp, h, ?_⟩
    rw [hleft]
    unfold shown at h
    split at h
    · exact List.eq_cons_of_mem_head? h
    · cases h
  · cases h

theorem newAnswered_of_not_shown (h : s.shown barrierAddr x i = none) :
    s.newAnswered barrierAddr x i = none := by
  unfold newAnswered
  split
  · exact h
  · rfl

end

/-! ## The next state -/

variable [Zero β]

/-- The answer core `i` takes that is not the barrier's own. -/
def newPassed (s : TileSys n α β) (x : TileIn n α β) (i : Fin n) : Option (Rsp β) :=
  if x.pReady i && !(s.regs.stateQ i = .Take : Bool) then
    s.regs.inP (s.outRsp barrierAddr x) i
  else none

def next (s : TileSys n α β) (x : TileIn n α β) : TileSys n α β where
  regs :=
    { stateQ := fun i =>
        s.regs.stateD barrierAddr (s.inReq x i) (s.outRsp barrierAddr x) i
      userQ := fun i => s.regs.userD (s.inReq x i) (s.outRsp barrierAddr x) i }
  held := fun i =>
    if (s.inReq x i).qValid && !s.ready barrierAddr x i then some (s.inReq x i).q else none
  pending := s.left barrierAddr x
  showing := fun i => (s.shown barrierAddr x i).isSome && !x.pReady i
  accepted := fun i => s.accepted i ++ (s.newAccepted barrierAddr x i).toList
  forwarded := fun i => s.forwarded i ++ (s.newEntry barrierAddr x i).toList
  answered := fun i => s.answered i ++ (s.newAnswered barrierAddr x i).toList
  passed := fun i => s.passed i ++ (s.newPassed barrierAddr x i).toList
  barrierRsps := fun i =>
    s.barrierRsps i + if x.pReady i && (s.regs.stateQ i = .Take : Bool) then 1 else 0
  granted := s.granted ++ if s.takes barrierAddr x then (s.shown barrierAddr x 0).toList else []

def machine (n : Nat) [NeZero n] (α β : Type) [Zero β] (barrierAddr : BitVec 32) :
    Machine (TileSys n α β) (TileIn n α β) where
  init := reset n α β
  next := next barrierAddr

variable {barrierAddr} {s : TileSys n α β} {x : TileIn n α β} {i : Fin n}

/-! ## One port, state by state -/

theorem next_stateQ (s : TileSys n α β) (x : TileIn n α β) (i : Fin n) :
    (s.next barrierAddr x).regs.stateQ i =
      s.regs.stateD barrierAddr (s.inReq x i) (s.outRsp barrierAddr x) i := rfl

theorem next_stateQ_of_idle (hs : s.regs.stateQ i = .Idle) :
    (s.next barrierAddr x).regs.stateQ i =
      if TileBarrier.isBarrierReq barrierAddr (s.inReq x i) then .Wait else .Idle := by
  rw [next_stateQ, TileBarrier.stateD, hs]

theorem next_stateQ_of_wait (hs : s.regs.stateQ i = .Wait) :
    (s.next barrierAddr x).regs.stateQ i =
      if s.regs.localBarrier then
        if i = 0 then if x.qReady i then .Global else .Wait else .Global
      else .Wait := by
  rw [next_stateQ, TileBarrier.stateD, hs]
  rfl

theorem next_stateQ_of_global (hs : s.regs.stateQ i = .Global) :
    (s.next barrierAddr x).regs.stateQ i = if s.takes barrierAddr x then .Take else .Global := by
  rw [next_stateQ, TileBarrier.stateD, hs]
  rfl

theorem next_stateQ_of_take (hs : s.regs.stateQ i = .Take) :
    (s.next barrierAddr x).regs.stateQ i = if x.pReady i then .Idle else .Take := by
  rw [next_stateQ, TileBarrier.stateD, hs]
  unfold inReq
  cases s.held i <;> rfl

/-! ## How a port gets into a state -/

/-- What a port does in one cycle. -/
inductive PortStep (barrierAddr : BitVec 32) (s : TileSys n α β) (x : TileIn n α β) (i : Fin n) :
    BarrierState → BarrierState → Prop where
  | idle : PortStep barrierAddr s x i .Idle .Idle
  | request (hb : TileBarrier.isBarrierReq barrierAddr (s.inReq x i) = true) :
      PortStep barrierAddr s x i .Idle .Wait
  | hold (hl : s.regs.localBarrier = true → i = 0 ∧ x.qReady i = false) :
      PortStep barrierAddr s x i .Wait .Wait
  | release (hl : s.regs.localBarrier = true) (hq : i = 0 → x.qReady i = true) :
      PortStep barrierAddr s x i .Wait .Global
  | pending (ht : s.takes barrierAddr x = false) : PortStep barrierAddr s x i .Global .Global
  | grant (ht : s.takes barrierAddr x = true) : PortStep barrierAddr s x i .Global .Take
  | refuse (hp : x.pReady i = false) : PortStep barrierAddr s x i .Take .Take
  | answer (hp : x.pReady i = true) : PortStep barrierAddr s x i .Take .Idle

theorem portStep_next (barrierAddr : BitVec 32) (s : TileSys n α β) (x : TileIn n α β) (i : Fin n) :
    PortStep barrierAddr s x i (s.regs.stateQ i) ((s.next barrierAddr x).regs.stateQ i) := by
  cases hs : s.regs.stateQ i with
  | Idle =>
    rw [next_stateQ_of_idle hs]
    split
    · exact .request ‹_›
    · exact .idle
  | Wait =>
    rw [next_stateQ_of_wait hs]
    split
    · rename_i hl
      split
      · rename_i h0
        split
        · rename_i hq
          exact .release hl (fun _ => hq)
        · rename_i hq
          exact .hold (fun _ => ⟨h0, Bool.eq_false_of_not_eq_true hq⟩)
      · rename_i h0
        exact .release hl (fun h => absurd h h0)
    · rename_i hl
      exact .hold (fun h => absurd h hl)
  | Global =>
    rw [next_stateQ_of_global hs]
    split
    · exact .grant ‹_›
    · exact .pending (Bool.eq_false_of_not_eq_true ‹_›)
  | Take =>
    rw [next_stateQ_of_take hs]
    split
    · exact .answer ‹_›
    · exact .refuse (Bool.eq_false_of_not_eq_true ‹_›)

theorem wait_of_next (hs' : (s.next barrierAddr x).regs.stateQ i = .Wait) :
    (s.regs.stateQ i = .Idle ∧ TileBarrier.isBarrierReq barrierAddr (s.inReq x i) = true) ∨
    (s.regs.stateQ i = .Wait ∧ (s.regs.localBarrier = true → i = 0 ∧ x.qReady i = false)) := by
  have h := portStep_next barrierAddr s x i
  rw [hs'] at h
  generalize s.regs.stateQ i = q at h ⊢
  cases h with
  | request hb => exact Or.inl ⟨rfl, hb⟩
  | hold hl => exact Or.inr ⟨rfl, hl⟩

theorem global_of_next (hs' : (s.next barrierAddr x).regs.stateQ i = .Global) :
    (s.regs.stateQ i = .Wait ∧ s.regs.localBarrier = true ∧ (i = 0 → x.qReady i = true)) ∨
    (s.regs.stateQ i = .Global ∧ s.takes barrierAddr x = false) := by
  have h := portStep_next barrierAddr s x i
  rw [hs'] at h
  generalize s.regs.stateQ i = q at h ⊢
  cases h with
  | release hl hq => exact Or.inl ⟨rfl, hl, hq⟩
  | pending ht => exact Or.inr ⟨rfl, ht⟩

theorem take_of_next (hs' : (s.next barrierAddr x).regs.stateQ i = .Take) :
    (s.regs.stateQ i = .Global ∧ s.takes barrierAddr x = true) ∨
    (s.regs.stateQ i = .Take ∧ x.pReady i = false) := by
  have h := portStep_next barrierAddr s x i
  rw [hs'] at h
  generalize s.regs.stateQ i = q at h ⊢
  cases h with
  | grant ht => exact Or.inl ⟨rfl, ht⟩
  | refuse hp => exact Or.inr ⟨rfl, hp⟩

/-- A request that is not taken is held. -/
theorem next_held_of_not_ready (hv : (s.inReq x i).qValid = true)
    (hr : s.ready barrierAddr x i = false) :
    (s.next barrierAddr x).held i = some (s.inReq x i).q := by
  show (if (s.inReq x i).qValid && !s.ready barrierAddr x i then _ else _) = _
  rw [hv, hr]
  rfl

theorem next_held_of_held {r : Req α} (h : s.held i = some r)
    (hr : s.ready barrierAddr x i = false) : (s.next barrierAddr x).held i = some r := by
  have hin := inReq_of_held (x := x) h
  rw [next_held_of_not_ready (by rw [hin]) hr, hin]

/-! ## What holds in every run -/

/-- Answers come from what the downstream took, in order; a port in the barrier holds its barrier request;
port 0 is in `Global` only with all others; an answer shown is one that is owed. -/
structure Sound (barrierAddr : BitVec 32) (s : TileSys n α β) : Prop where
  in_order : ∀ i, s.forwarded i = s.answered i ++ s.pending i
  holds : ∀ i, s.regs.stateQ i = .Wait ∨ s.regs.stateQ i = .Global →
    ∃ r, s.held i = some r ∧ r.addr = barrierAddr
  together : s.regs.stateQ 0 = .Global → ∀ i, s.regs.stateQ i = .Global
  owed : ∀ i, s.showing i = true → s.pending i ≠ []
  released : ∀ i, s.barrierRsps i + (if s.regs.stateQ i = .Take then 1 else 0) = s.granted.length

omit [Zero β] in
theorem sound_reset : Sound barrierAddr (reset n α β) where
  in_order := fun _ => rfl
  holds := by
    intro i h
    rcases h with h | h <;> cases h
  together := by
    intro h
    cases h
  owed := by
    intro i h
    cases h
  released := fun _ => rfl

theorem Sound.next_in_order (h : Sound barrierAddr s) (x : TileIn n α β) (i : Fin n) :
    (s.next barrierAddr x).forwarded i =
      (s.next barrierAddr x).answered i ++ (s.next barrierAddr x).pending i := by
  show s.forwarded i ++ (s.newEntry barrierAddr x i).toList =
    s.answered i ++ (s.newAnswered barrierAddr x i).toList ++ s.left barrierAddr x i
  have hpool : s.forwarded i ++ (s.newEntry barrierAddr x i).toList =
      s.answered i ++ s.pool barrierAddr x i := by
    rw [h.in_order i, List.append_assoc, pool]
  rw [hpool, List.append_assoc]
  cases ha : s.newAnswered barrierAddr x i with
  | none => rw [left_of_not_answered ha, Option.toList_none, List.nil_append]
  | some e => rw [(head_of_newAnswered ha).2.2, Option.toList_some, List.singleton_append]

theorem Sound.next_holds (h : Sound barrierAddr s) (x : TileIn n α β) (i : Fin n)
    (hs' : (s.next barrierAddr x).regs.stateQ i = .Wait ∨
      (s.next barrierAddr x).regs.stateQ i = .Global) :
    ∃ r, (s.next barrierAddr x).held i = some r ∧ r.addr = barrierAddr := by
  have hwait : s.regs.stateQ i = .Wait →
      ∃ r, (s.next barrierAddr x).held i = some r ∧ r.addr = barrierAddr := by
    intro hs
    obtain ⟨r, hr, haddr⟩ := h.holds i (Or.inl hs)
    exact ⟨r, next_held_of_held hr (ready_of_wait hs), haddr⟩
  rcases hs' with hs' | hs'
  · rcases wait_of_next hs' with ⟨hs, hb⟩ | ⟨hs, -⟩
    · have hr : s.ready barrierAddr x i = false := by
        rw [ready, TileBarrier.inQReady, hs]
        simp [hb]
      simp only [TileBarrier.isBarrierReq, Bool.and_eq_true, decide_eq_true_eq] at hb
      exact ⟨_, next_held_of_not_ready hb.1 hr, hb.2⟩
    · exact hwait hs
  · rcases global_of_next hs' with ⟨hs, -⟩ | ⟨hs, ht⟩
    · exact hwait hs
    · obtain ⟨r, hr, haddr⟩ := h.holds i (Or.inr hs)
      exact ⟨r, next_held_of_held hr (by rw [ready_of_global hs, ht]), haddr⟩

theorem Sound.next_together (h : Sound barrierAddr s) (x : TileIn n α β)
    (hs' : (s.next barrierAddr x).regs.stateQ 0 = .Global) :
    ∀ i, (s.next barrierAddr x).regs.stateQ i = .Global := by
  intro i
  rcases global_of_next hs' with ⟨-, hl, hq⟩ | ⟨hs, ht⟩
  · rw [next_stateQ_of_wait (localBarrier_iff.mp hl i), if_pos hl]
    by_cases h0 : i = 0
    · rw [if_pos h0, h0, if_pos (hq rfl)]
    · rw [if_neg h0]
  · rw [next_stateQ_of_global (h.together hs i), ht]
    rfl

theorem next_owed (s : TileSys n α β) (x : TileIn n α β) (i : Fin n)
    (hs' : (s.next barrierAddr x).showing i = true) : (s.next barrierAddr x).pending i ≠ [] := by
  show s.left barrierAddr x i ≠ []
  have hshow : (s.shown barrierAddr x i).isSome = true ∧ x.pReady i = false := by
    have h : ((s.shown barrierAddr x i).isSome && !x.pReady i) = true := hs'
    simpa using h
  have hna : s.newAnswered barrierAddr x i = none := by
    rw [newAnswered, hshow.2]
    rfl
  rw [left_of_not_answered hna]
  intro hnil
  rw [shown, hnil] at hshow
  simp at hshow

theorem Sound.next_released (h : Sound barrierAddr s) (x : TileIn n α β) (i : Fin n) :
    (s.next barrierAddr x).barrierRsps i +
      (if (s.next barrierAddr x).regs.stateQ i = .Take then 1 else 0) =
      (s.next barrierAddr x).granted.length := by
  have hi := h.released i
  show s.barrierRsps i + (if x.pReady i && (s.regs.stateQ i = .Take : Bool) then 1 else 0) + _ =
    (s.granted ++ if s.takes barrierAddr x then (s.shown barrierAddr x 0).toList else []).length
  rw [List.length_append]
  cases ht : s.takes barrierAddr x with
  | true =>
    obtain ⟨hall, hshow⟩ := takes_iff.mp ht
    obtain ⟨e, he⟩ := Option.isSome_iff_exists.mp hshow
    rw [next_stateQ_of_global (hall i), ht, he]
    rw [hall i] at hi ⊢
    simpa using hi
  | false =>
    have hstate : (s.next barrierAddr x).regs.stateQ i = .Take ↔
        s.regs.stateQ i = .Take ∧ x.pReady i = false := by
      constructor
      · intro hs'
        rcases take_of_next hs' with ⟨-, ht'⟩ | hstay
        · rw [ht] at ht'
          cases ht'
        · exact hstay
      · rintro ⟨hs, hp⟩
        rw [next_stateQ_of_take hs, hp]
        rfl
    by_cases hs : s.regs.stateQ i = .Take
    · cases hp : x.pReady i <;> simp_all
    · simp_all

theorem sound_next (h : Sound barrierAddr s) (x : TileIn n α β) :
    Sound barrierAddr (s.next barrierAddr x) where
  in_order := h.next_in_order x
  holds := h.next_holds x
  together := h.next_together x
  owed := s.next_owed x
  released := h.next_released x

theorem sound_run (barrierAddr : BitVec 32) (xs : List (TileIn n α β)) :
    Sound barrierAddr ((machine n α β barrierAddr).run xs) :=
  Machine.invariant_of_next (P := Sound barrierAddr) sound_reset (fun _ x h => sound_next h x) xs

end TileSys

end Barrier

end CachePool
