import CachePool.Amo.Alu

/-!
# The atomics unit in front of a cache bank (`spatz_cache_amo`)

Registers, outputs and next state of the unit at a data width of 32 bits, where a request has one
word lane (`idx_q` is zero).  A cycle's inputs are the request the crossbar presents, the cache's
ready, the response the cache presents, and the crossbar's ready for it.

* `fires` — a request is presented and the cache is ready: the reservation and the record of the last
  store-conditional are updated then, also while the unit is busy with an atomic and does not take
  the request.
* `reservationD_cases` — what leaves a reservation valid.
* `memReqO_of_accepted`, `next_stateQ_of_*` — outputs and transitions, one lemma for each state;
  `doAMO_of_next`, `writeBack_of_next`, `wait_of_next` — the transitions read backwards.
-/

set_option autoImplicit false

namespace CachePool

namespace Amo

/-- `state_e`. -/
inductive State where
  | Idle
  | Wait
  | DoAMO
  | WriteBackAMO
  deriving DecidableEq, Repr

/-- `reservation_t`. -/
structure Reservation where
  valid : Bool
  addr : BitVec 32
  core : Nat
  deriving DecidableEq, Repr

/-- The registers of the unit. -/
structure CacheAmo where
  stateQ : State
  reservationQ : Reservation
  scQ : Bool
  scUserQ : TcdmUser
  scSuccessfulQ : Bool
  amoUserQ : TcdmUser
  amoOpQ : AmoOp
  addrQ : BitVec 32
  operandBQ : BitVec 32
  amoResultQ : BitVec 32
  deriving DecidableEq, Repr

/-- The inputs of one cycle. -/
structure In where
  /-- `core_req_i.q`, when valid -/
  coreReq : Option TcdmReqChan
  /-- `mem_rsp_i.q_ready` -/
  memQReady : Bool
  /-- `mem_rsp_i.p`, when valid -/
  memRsp : Option TcdmRspChan
  /-- `core_rsp_ready_i` -/
  coreRspReady : Bool

namespace CacheAmo

def reset : CacheAmo where
  stateQ := .Idle
  reservationQ := ⟨false, 0, 0⟩
  scQ := false
  scUserQ := ⟨0, 0, false, 0, false⟩
  scSuccessfulQ := false
  amoUserQ := ⟨0, 0, false, 0, false⟩
  amoOpQ := .AMOAdd
  addrQ := 0
  operandBQ := 0
  amoResultQ := 0

variable (s : CacheAmo) (x : In)

/-- `amo_req_valid & amo_req_ready`, with the request. -/
def fires : Option TcdmReqChan := if x.memQReady then x.coreReq else none

/-! ## Load-reserved and store-conditional -/

/-- `sc_successful`. -/
def scSuccessful : Bool :=
  match fires x with
  | some q => s.reservationQ.valid && decide (q.amo = .AMOSC) &&
      decide (s.reservationQ.core = q.user.coreId) && decide (s.reservationQ.addr = q.addr)
  | none => false

/-- `reservation_d`. -/
def reservationD : Reservation :=
  match fires x with
  | none => s.reservationQ
  | some q =>
    let r := if q.amo = .AMOLR then ⟨true, q.addr, q.user.coreId⟩ else s.reservationQ
    -- a write attempt of another core
    let r := if q.user.coreId ≠ s.reservationQ.core ∧ q.addr = s.reservationQ.addr ∧
        (isRmw q.amo = true ∨ q.write = true) then { r with valid := false } else r
    -- an SC of the same hart clears any pending reservation
    if s.reservationQ.valid = true ∧ q.amo = .AMOSC ∧ s.reservationQ.core = q.user.coreId then
      { r with valid := false } else r

/-- `sc_set`. -/
def scSet : Bool :=
  match fires x with
  | some q => decide (q.amo = .AMOSC)
  | none => false

/-- `is_sc_rsp`. -/
def isScRsp : Bool :=
  match x.memRsp with
  | some r => s.scQ && decide (s.scUserQ.coreId = r.user.coreId) &&
      decide (s.scUserQ.reqId = r.user.reqId)
  | none => false

/-- `sc_clr`. -/
def scClr : Bool := s.isScRsp x && x.coreRspReady

/-- `sc_rsp`. -/
def scRsp (r : TcdmRspChan) : TcdmRspChan :=
  { r with data := if s.scQ then (if s.scSuccessfulQ then 0 else 1) else r.data }

/-! ## Atomics -/

/-- `core_ready`. -/
def coreReady : Bool :=
  match s.stateQ with
  | .Idle => x.memQReady
  | _ => false

/-- The request taken in this cycle: `core_req_i.q_valid & core_rsp_o.q_ready`. -/
def accepted : Option TcdmReqChan := if s.coreReady x then x.coreReq else none

/-- `load_amo`. -/
def loadAmo : Bool :=
  match fires x with
  | some q => s.coreReady x && isRmw q.amo
  | none => false

/-- `mem_req_o`. -/
def memReqO : Option TcdmReqChan :=
  match s.stateQ with
  | .Idle => x.coreReq.map fun q =>
      { q with write := q.write || (s.scSuccessful x && decide (q.amo = .AMOSC)), amo := .AMONone }
  | .DoAMO => none
  | .WriteBackAMO => some
      { addr := s.addrQ, write := true, amo := .AMONone, data := s.amoResultQ, strb := 0b1111
        user := { s.amoUserQ with isAmo := true } }
  | .Wait => none

/-- The response the unit takes for that of its read, in state `DoAMO`. -/
def readRsp : Option TcdmRspChan :=
  x.memRsp.filter fun r =>
    decide (s.amoUserQ.coreId = r.user.coreId) && decide (s.amoUserQ.reqId = r.user.reqId)

/-- `state_d`. -/
def stateD : State :=
  match s.stateQ with
  | .Idle => if s.loadAmo x then .DoAMO else .Idle
  | .DoAMO => if (s.readRsp x).isSome then .WriteBackAMO else .DoAMO
  | .WriteBackAMO => if x.memQReady then .Wait else .WriteBackAMO
  | .Wait => if x.memRsp.any (·.user.isAmo) then .Idle else .Wait

/-- `amo_result_q` after the cycle. -/
def amoResultD : BitVec 32 :=
  match s.stateQ, s.readRsp x with
  | .DoAMO, some r => amoAlu s.amoOpQ r.data s.operandBQ
  | _, _ => s.amoResultQ

/-! ## Responses -/

/-- `core_rsp_o.p` and its valid; the response to a write-back is not forwarded. -/
def coreRspO : Option TcdmRspChan :=
  x.memRsp.bind fun r =>
    if r.user.isAmo then none else some (if s.isScRsp x then s.scRsp r else r)

/-- `mem_rsp_ready_o`. -/
def memRspReadyO : Bool := x.memRsp.any (·.user.isAmo) || x.coreRspReady

/-- One cycle. -/
def next : CacheAmo where
  stateQ := s.stateD x
  reservationQ := s.reservationD x
  scQ := if scSet x || s.scClr x then scSet x && !s.scClr x else s.scQ
  scUserQ := match fires x with
    | some q => if scSet x then q.user else s.scUserQ
    | none => s.scUserQ
  scSuccessfulQ := if scSet x then s.scSuccessful x else s.scSuccessfulQ
  amoUserQ := match fires x with
    | some q => if s.loadAmo x then q.user else s.amoUserQ
    | none => s.amoUserQ
  amoOpQ := match fires x with
    | some q => if s.loadAmo x then q.amo else s.amoOpQ
    | none => s.amoOpQ
  addrQ := match fires x with
    | some q => if s.loadAmo x then q.addr else s.addrQ
    | none => s.addrQ
  -- only the low word of the 64-bit `wdata` exists
  operandBQ := match fires x with
    | some q => if s.loadAmo x then (if q.strb.getLsbD 0 then q.data else 0) else s.operandBQ
    | none => s.operandBQ
  amoResultQ := s.amoResultD x

variable {s x}

/-! ## When a request is taken -/

theorem accepted_eq_some_iff {q : TcdmReqChan} :
    s.accepted x = some q ↔ s.stateQ = .Idle ∧ x.memQReady = true ∧ x.coreReq = some q := by
  unfold accepted coreReady
  cases s.stateQ <;> cases x.memQReady <;> simp

/-- A request that is taken also fires. -/
theorem fires_of_accepted {q : TcdmReqChan} (h : s.accepted x = some q) : fires x = some q := by
  obtain ⟨-, hr, hq⟩ := accepted_eq_some_iff.mp h
  rw [fires, if_pos hr, hq]

/-- Only a request that is taken starts an atomic. -/
theorem loadAmo_eq : s.loadAmo x = (s.accepted x).any (fun q => isRmw q.amo) := by
  unfold loadAmo fires accepted coreReady
  cases s.stateQ <;> cases x.memQReady <;> cases x.coreReq <;> simp

/-- The registers loaded with an atomic: user, operation, address and operand. -/
def amoRegs (s : CacheAmo) : TcdmUser × AmoOp × BitVec 32 × BitVec 32 :=
  (s.amoUserQ, s.amoOpQ, s.addrQ, s.operandBQ)

theorem next_amoRegs_of_not_load (h : s.loadAmo x = false) : (s.next x).amoRegs = s.amoRegs := by
  unfold next amoRegs
  rw [h]
  cases fires x <;> rfl

theorem next_amoRegs_of_load {q : TcdmReqChan} (ha : s.accepted x = some q)
    (h : isRmw q.amo = true) :
    (s.next x).amoRegs =
      (q.user, q.amo, q.addr, if q.strb.getLsbD 0 then q.data else 0) := by
  have hload : s.loadAmo x = true := by simp [loadAmo_eq, ha, h]
  unfold next amoRegs
  simp only [fires_of_accepted ha, hload, if_true]

/-! ## Outputs and transitions by state -/

theorem memReqO_of_accepted {q : TcdmReqChan} (h : s.accepted x = some q) :
    s.memReqO x = some { q with write := q.write || (s.scSuccessful x && decide (q.amo = .AMOSC))
                                amo := .AMONone } := by
  obtain ⟨hidle, -, hq⟩ := accepted_eq_some_iff.mp h
  unfold memReqO
  simp only [hidle, hq, Option.map_some]

theorem next_stateQ_of_accepted {q : TcdmReqChan} (h : s.accepted x = some q) :
    (s.next x).stateQ = if isRmw q.amo then .DoAMO else .Idle := by
  obtain ⟨hidle, -, -⟩ := accepted_eq_some_iff.mp h
  show s.stateD x = _
  unfold stateD
  simp only [hidle, loadAmo_eq, h, Option.any_some]

theorem next_stateQ_of_idle (hidle : s.stateQ = .Idle) (h : s.accepted x = none) :
    (s.next x).stateQ = .Idle := by
  show s.stateD x = _
  unfold stateD
  simp [hidle, loadAmo_eq, h]

theorem next_stateQ_of_doAMO (h : s.stateQ = .DoAMO) :
    (s.next x).stateQ = if (s.readRsp x).isSome then .WriteBackAMO else .DoAMO := by
  show s.stateD x = _
  unfold stateD
  rw [h]

theorem next_stateQ_of_writeBack (h : s.stateQ = .WriteBackAMO) :
    (s.next x).stateQ = if x.memQReady then .Wait else .WriteBackAMO := by
  show s.stateD x = _
  unfold stateD
  rw [h]

theorem next_stateQ_of_wait (h : s.stateQ = .Wait) :
    (s.next x).stateQ = if x.memRsp.any (·.user.isAmo) then .Idle else .Wait := by
  show s.stateD x = _
  unfold stateD
  rw [h]

/-! Where a cycle that takes no request comes from. -/

theorem doAMO_of_next (ha : s.accepted x = none) (h : (s.next x).stateQ = .DoAMO) :
    s.stateQ = .DoAMO ∧ s.readRsp x = none := by
  cases hs : s.stateQ with
  | Idle =>
    rw [next_stateQ_of_idle hs ha] at h
    cases h
  | DoAMO =>
    rw [next_stateQ_of_doAMO hs] at h
    cases hr : s.readRsp x with
    | none => exact ⟨rfl, rfl⟩
    | some r =>
      rw [hr] at h
      cases h
  | WriteBackAMO =>
    rw [next_stateQ_of_writeBack hs] at h
    split at h <;> cases h
  | Wait =>
    rw [next_stateQ_of_wait hs] at h
    split at h <;> cases h

theorem writeBack_of_next (ha : s.accepted x = none) (h : (s.next x).stateQ = .WriteBackAMO) :
    (s.stateQ = .DoAMO ∧ ∃ r, s.readRsp x = some r) ∨
    (s.stateQ = .WriteBackAMO ∧ x.memQReady = false) := by
  cases hs : s.stateQ with
  | Idle =>
    rw [next_stateQ_of_idle hs ha] at h
    cases h
  | DoAMO =>
    rw [next_stateQ_of_doAMO hs] at h
    cases hr : s.readRsp x with
    | none =>
      rw [hr] at h
      cases h
    | some r => exact Or.inl ⟨rfl, r, rfl⟩
  | WriteBackAMO =>
    rw [next_stateQ_of_writeBack hs] at h
    cases hr : x.memQReady
    · exact Or.inr ⟨rfl, rfl⟩
    · rw [hr] at h
      cases h
  | Wait =>
    rw [next_stateQ_of_wait hs] at h
    split at h <;> cases h

theorem wait_of_next (ha : s.accepted x = none) (h : (s.next x).stateQ = .Wait) :
    (s.stateQ = .WriteBackAMO ∧ x.memQReady = true) ∨
    (s.stateQ = .Wait ∧ x.memRsp.any (·.user.isAmo) = false) := by
  cases hs : s.stateQ with
  | Idle =>
    rw [next_stateQ_of_idle hs ha] at h
    cases h
  | DoAMO =>
    rw [next_stateQ_of_doAMO hs] at h
    split at h <;> cases h
  | WriteBackAMO =>
    rw [next_stateQ_of_writeBack hs] at h
    cases hr : x.memQReady
    · rw [hr] at h
      cases h
    · exact Or.inl ⟨rfl, rfl⟩
  | Wait =>
    rw [next_stateQ_of_wait hs] at h
    cases hr : x.memRsp.any (·.user.isAmo)
    · exact Or.inr ⟨rfl, rfl⟩
    · rw [hr] at h
      cases h

theorem next_amoResultQ_of_doAMO (h : s.stateQ = .DoAMO) {r : TcdmRspChan}
    (hr : s.readRsp x = some r) :
    (s.next x).amoResultQ = amoAlu s.amoOpQ r.data s.operandBQ := by
  show s.amoResultD x = _
  unfold amoResultD
  rw [h, hr]

theorem next_amoResultQ_of_not_doAMO (h : s.stateQ ≠ .DoAMO) :
    (s.next x).amoResultQ = s.amoResultQ := by
  show s.amoResultD x = _
  unfold amoResultD
  cases hs : s.stateQ <;> simp_all

theorem readRsp_eq_some_iff {r : TcdmRspChan} :
    s.readRsp x = some r ↔ x.memRsp = some r ∧ s.amoUserQ.coreId = r.user.coreId ∧
      s.amoUserQ.reqId = r.user.reqId := by
  unfold readRsp
  rw [Option.filter_eq_some_iff]
  simp

theorem scSuccessful_iff {q : TcdmReqChan} (h : fires x = some q) :
    s.scSuccessful x = true ↔ s.reservationQ.valid = true ∧ q.amo = .AMOSC ∧
      s.reservationQ.core = q.user.coreId ∧ s.reservationQ.addr = q.addr := by
  unfold scSuccessful
  simp only [h, Bool.and_eq_true, decide_eq_true_eq, and_assoc]

/-- A reservation that is valid after a cycle is the presented load-reserved, or was valid before and
neither broken by another core nor used by a store-conditional. -/
theorem reservationD_cases {q : TcdmReqChan} (h : fires x = some q)
    (hv : (s.reservationD x).valid = true) :
    (q.amo = .AMOLR ∧ (s.reservationD x).addr = q.addr ∧
      (s.reservationD x).core = q.user.coreId) ∨
    (q.amo ≠ .AMOLR ∧ s.reservationD x = s.reservationQ ∧
      ¬ (q.user.coreId ≠ s.reservationQ.core ∧ q.addr = s.reservationQ.addr ∧
        (isRmw q.amo = true ∨ q.write = true)) ∧
      ¬ (q.amo = .AMOSC ∧ s.reservationQ.core = q.user.coreId)) := by
  unfold reservationD at hv ⊢
  simp only [h] at hv ⊢
  split at hv
  · cases hv
  · rename_i hsc
    split at hv
    · cases hv
    · rename_i hbreak
      rw [if_neg hsc, if_neg hbreak]
      by_cases hlr : q.amo = .AMOLR
      · rw [if_pos hlr]
        exact Or.inl ⟨hlr, rfl, rfl⟩
      · rw [if_neg hlr] at hv ⊢
        exact Or.inr ⟨hlr, rfl, hbreak, fun hc => hsc ⟨hv, hc⟩⟩

theorem reservationD_of_not_fires (h : fires x = none) : s.reservationD x = s.reservationQ := by
  unfold reservationD
  rw [h]

end CacheAmo

end Amo

end CachePool
