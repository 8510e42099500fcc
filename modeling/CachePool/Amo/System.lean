import CachePool.Amo.Atomic
import CachePool.Lib.Bag
import CachePool.Lib.Machine

/-!
# The atomics unit with a memory

The unit between a list of requests and a memory that performs each access when it takes it and
answers at any later time, in any order.  `accepted`, `performed`, `received` and `filtered` record
what has been taken from the crossbar, what the memory has performed, and where responses went;
`holder` and `scOwner` whose reservation and whose store-conditional the unit has recorded.

* `request_cases` — on the request side a cycle takes a request, performs a write-back, or does
  nothing.
* `respond_cases` — on the response side it filters a response, delivers one, or keeps all.
-/

set_option autoImplicit false

namespace CachePool

namespace Amo

/-- A request of the crossbar: `is_amo` is set by the unit alone, and the unit's assertions
`AMOWriteEnable` and `ByteMaskCorrect` hold. -/
structure CoreReq where
  chan : TcdmReqChan
  not_isAmo : chan.user.isAmo = false
  not_write : chan.amo ≠ .AMONone → chan.write = false
  strb_all : chan.amo ≠ .AMONone → chan.strb = 0b1111

structure AmoSys where
  unit : CacheAmo
  /-- the requests the crossbar has still to present -/
  queue : List CoreReq
  mem : Mem
  /-- responses the memory has still to present -/
  inFlight : List (Txn × TcdmRspChan)
  accepted : List Taken
  performed : List (Txn × TcdmReqChan)
  received : List (Txn × TcdmRspChan)
  filtered : List Txn
  /-- the hart whose load-reserved set the reservation last -/
  holder : Hart
  /-- the number of the store-conditional that set the record (`sc_user_q`, `sc_successful_q`) last -/
  scOwner : Option Nat

/-- The inputs of one cycle. -/
structure AmoIn where
  valid : Bool
  memQReady : Bool
  /-- the position of the response the memory presents -/
  rsp : Option Nat
  coreRspReady : Bool
  /-- the data a write is answered with -/
  ackData : BitVec 32

/-- A request that has been taken is as the assertions say, and only a store-conditional succeeds. -/
structure Taken.Wf (e : Taken) : Prop where
  not_isAmo : e.req.user.isAmo = false
  not_write : e.req.amo ≠ .AMONone → e.req.write = false
  strb_all : e.req.amo ≠ .AMONone → e.req.strb = 0b1111
  sc_of_ok : e.scOk = true → e.req.amo = .AMOSC

/-- The read of an atomic is forwarded as a read. -/
theorem Taken.Wf.forward_write_of_rmw {e : Taken} (h : e.Wf) (hrmw : isRmw e.req.amo = true) :
    e.forward.write = false := by
  have hok : e.scOk = false := by
    cases ho : e.scOk
    · rfl
    · rw [h.sc_of_ok ho] at hrmw
      cases hrmw
  show (e.req.write || e.scOk) = false
  rw [h.not_write (ne_none_of_isRmw hrmw), hok]
  rfl

/-- A store-conditional is forwarded as a write if it has succeeded. -/
theorem Taken.Wf.forward_write_of_sc {e : Taken} (h : e.Wf) (hsc : e.req.amo = .AMOSC) :
    e.forward.write = e.scOk := by
  show (e.req.write || e.scOk) = e.scOk
  rw [h.not_write (by rw [hsc]; exact fun hc => nomatch hc), Bool.false_or]

namespace AmoSys

variable (s : AmoSys) (x : AmoIn)

def reset (mem : Mem) (reqs : List CoreReq) : AmoSys :=
  ⟨CacheAmo.reset, reqs, mem, [], [], [], [], [], ⟨0, 0⟩, none⟩

/-- The response presented, with those left behind it. -/
def presented : Option ((Txn × TcdmRspChan) × List (Txn × TcdmRspChan)) :=
  x.rsp.bind (Bag.draw s.inFlight)

def unitIn : In where
  coreReq := if x.valid then s.queue.head?.map CoreReq.chan else none
  memQReady := x.memQReady
  memRsp := (s.presented x).map (·.1.2)
  coreRspReady := x.coreRspReady

/-- The request taken in this cycle. -/
def newAccepted : List Taken :=
  (s.unit.accepted (s.unitIn x)).toList.map fun q => ⟨q, s.unit.scSuccessful (s.unitIn x)⟩

/-- The request an access of this cycle belongs to. -/
def txn : Txn :=
  if s.unit.stateQ = .WriteBackAMO then .wb (s.accepted.length - 1) else .core s.accepted.length

/-- The access the memory performs in this cycle. -/
def newPerformed : List (Txn × TcdmReqChan) :=
  if x.memQReady then (s.unit.memReqO (s.unitIn x)).toList.map fun m => (s.txn, m) else []

/-- The memory's answer to an access. -/
def answer (m : TcdmReqChan) : TcdmRspChan where
  data := if m.write then x.ackData else s.mem (wordOf m.addr)
  write := m.write
  user := m.user

/-- The responses the memory keeps: the presented one leaves when `mem_rsp_ready_o` is set. -/
def left : List (Txn × TcdmRspChan) :=
  match s.presented x with
  | some (_, rest) => if CacheAmo.memRspReadyO (s.unitIn x) then rest else s.inFlight
  | none => s.inFlight

/-- The response the crossbar receives. -/
def newReceived : List (Txn × TcdmRspChan) :=
  match s.presented x, s.unit.coreRspO (s.unitIn x) with
  | some ((t, _), _), some r => if x.coreRspReady then [(t, r)] else []
  | _, _ => []

/-- The response the unit drops. -/
def newFiltered : List Txn :=
  match s.presented x, s.unit.coreRspO (s.unitIn x) with
  | some ((t, _), _), none => if CacheAmo.memRspReadyO (s.unitIn x) then [t] else []
  | _, _ => []

def next : AmoSys where
  unit := s.unit.next (s.unitIn x)
  queue := if (s.unit.accepted (s.unitIn x)).isSome then s.queue.tail else s.queue
  mem := (s.newPerformed x).foldl (fun m p => m.access p.2) s.mem
  inFlight := s.left x ++ (s.newPerformed x).map fun p => (p.1, s.answer x p.2)
  accepted := s.accepted ++ s.newAccepted x
  performed := s.performed ++ s.newPerformed x
  received := s.received ++ s.newReceived x
  filtered := s.filtered ++ s.newFiltered x
  holder :=
    match CacheAmo.fires (s.unitIn x) with
    | some q => if q.amo = .AMOLR then hartOf q.user else s.holder
    | none => s.holder
  -- a request that fires is the next to be taken
  scOwner := if CacheAmo.scSet (s.unitIn x) then some s.accepted.length else s.scOwner

def machine (mem : Mem) (reqs : List CoreReq) : Machine AmoSys AmoIn := ⟨reset mem reqs, next⟩

/-- An atomic has been read and not written back. -/
def midAmo : Bool := s.unit.stateQ = .DoAMO || s.unit.stateQ = .WriteBackAMO

/-- The write-back the unit still owes. -/
def owed : List Txn := if s.midAmo then [.wb (s.accepted.length - 1)] else []

/-- The requests whose accesses are complete. -/
def settled : List Taken := if s.midAmo then s.accepted.dropLast else s.accepted

/-! ## What a response may look like -/

/-- The access is the read of an atomic. -/
def ofAtomic (t : Txn) : Bool :=
  match t with
  | .core i => s.accepted[i]?.any fun e => isRmw e.req.amo
  | .wb _ => false

/-- A response presented to the unit is not mistaken for another: in `DoAMO`, a response with the
atomic's core and request numbers is that of its read; and no response of an atomic has those of the
last store-conditional while its response is awaited. -/
def OwnResponse : Prop :=
  ∀ p, s.presented x = some p →
    (s.unit.stateQ = .DoAMO → s.unit.amoUserQ.coreId = p.1.2.user.coreId →
      s.unit.amoUserQ.reqId = p.1.2.user.reqId → p.1.1 = .core (s.accepted.length - 1)) ∧
    (s.ofAtomic p.1.1 = true → s.unit.scQ = true →
      s.unit.scUserQ.coreId = p.1.2.user.coreId → s.unit.scUserQ.reqId ≠ p.1.2.user.reqId)

instance : Decidable (s.OwnResponse x) := by
  unfold OwnResponse
  exact Option.decidableForallMem (s.presented x)

variable {s x}

/-! ## The two sides of a cycle -/

/-- The write-back request. -/
def wbReq (u : CacheAmo) : TcdmReqChan where
  addr := u.addrQ
  write := true
  amo := .AMONone
  data := u.amoResultQ
  strb := 0b1111
  user := { u.amoUserQ with isAmo := true }

/-- What a cycle does on the request side: it takes a request and forwards it, it performs a
write-back, or it does neither. -/
inductive Request (s : AmoSys) (x : AmoIn) : Prop where
  | take (c : CoreReq) (tl : List CoreReq) (e : Taken) (hqueue : s.queue = c :: tl)
      (haccept : s.unit.accepted (s.unitIn x) = some c.chan) (hreq : e.req = c.chan)
      (hsc : e.scOk = true → c.chan.amo = .AMOSC) (hidle : s.unit.stateQ = .Idle)
      (hnew : s.newAccepted x = [e])
      (hperf : s.newPerformed x = [(.core s.accepted.length, e.forward)])
  | writeBack (hstate : s.unit.stateQ = .WriteBackAMO) (hready : x.memQReady = true)
      (haccept : s.unit.accepted (s.unitIn x) = none) (hnew : s.newAccepted x = [])
      (hperf : s.newPerformed x = [(.wb (s.accepted.length - 1), wbReq s.unit)])
  | none (haccept : s.unit.accepted (s.unitIn x) = none)
      (hstall : s.unit.stateQ = .WriteBackAMO → x.memQReady = false) (hnew : s.newAccepted x = [])
      (hperf : s.newPerformed x = [])

theorem request_cases (s : AmoSys) (x : AmoIn) : Request s x := by
  cases ha : s.unit.accepted (s.unitIn x) with
  | some q =>
    obtain ⟨hidle, hready, hq⟩ := CacheAmo.accepted_eq_some_iff.mp ha
    have hhead : s.queue.head?.map CoreReq.chan = some q := by
      unfold unitIn at hq
      simp only at hq
      split at hq
      · exact hq
      · cases hq
    obtain ⟨c, hc, rfl⟩ := Option.map_eq_some_iff.mp hhead
    obtain ⟨tl, htl⟩ : ∃ tl, s.queue = c :: tl := by
      cases hqueue : s.queue with
      | nil =>
        rw [hqueue] at hc
        cases hc
      | cons d tl =>
        rw [hqueue] at hc
        cases hc
        exact ⟨tl, rfl⟩
    have hamo : s.unit.scSuccessful (s.unitIn x) = true → c.chan.amo = .AMOSC := fun h =>
      ((CacheAmo.scSuccessful_iff (CacheAmo.fires_of_accepted ha)).mp h).2.1
    refine .take c tl ⟨c.chan, s.unit.scSuccessful (s.unitIn x)⟩ htl ha rfl hamo hidle
      (by simp [newAccepted, ha]) ?_
    have hmq : x.memQReady = true := hready
    rw [newPerformed, if_pos hmq, CacheAmo.memReqO_of_accepted ha, txn, hidle]
    simp only [Option.toList_some, List.map_cons, List.map_nil, Taken.forward, reduceCtorEq, if_false]
    cases hs : s.unit.scSuccessful (s.unitIn x)
    · simp
    · simp [hamo hs]
  | none =>
    have hnew : s.newAccepted x = [] := by simp [newAccepted, ha]
    by_cases hwb : s.unit.stateQ = .WriteBackAMO ∧ x.memQReady = true
    · refine .writeBack hwb.1 hwb.2 ha hnew ?_
      rw [newPerformed, if_pos hwb.2, txn, if_pos hwb.1]
      simp [CacheAmo.memReqO, hwb.1, wbReq]
    · refine .none ha (fun h => ?_) hnew ?_
      · cases hr : x.memQReady
        · rfl
        · exact absurd ⟨h, hr⟩ hwb
      · unfold newPerformed
        split
        · rename_i hr
          have hready : (s.unitIn x).memQReady = true := hr
          unfold CacheAmo.memReqO
          unfold CacheAmo.accepted CacheAmo.coreReady at ha
          cases hs : s.unit.stateQ with
          | Idle =>
            simp only [hs, hready, if_true] at ha
            simp [ha]
          | DoAMO => rfl
          | Wait => rfl
          | WriteBackAMO => exact absurd ⟨hs, hr⟩ hwb
        · rfl

/-- What a cycle does on the response side: it filters a response, it delivers one, or it keeps all. -/
inductive Respond (s : AmoSys) (x : AmoIn) : Prop where
  | filter (t : Txn) (r : TcdmRspChan) (rest : List (Txn × TcdmRspChan))
      (hpres : s.presented x = some ((t, r), rest)) (hamo : r.user.isAmo = true)
      (hrecv : s.newReceived x = []) (hfilt : s.newFiltered x = [t]) (hleft : s.left x = rest)
  | receive (t : Txn) (r : TcdmRspChan) (rest : List (Txn × TcdmRspChan))
      (hpres : s.presented x = some ((t, r), rest)) (hamo : r.user.isAmo = false)
      (hrecv : s.newReceived x =
        [(t, if s.unit.isScRsp (s.unitIn x) then s.unit.scRsp r else r)])
      (hfilt : s.newFiltered x = []) (hleft : s.left x = rest)
  | keep (hrecv : s.newReceived x = []) (hfilt : s.newFiltered x = [])
      (hleft : s.left x = s.inFlight)

theorem respond_cases (s : AmoSys) (x : AmoIn) : Respond s x := by
  cases hp : s.presented x with
  | none => exact .keep (by simp [newReceived, hp]) (by simp [newFiltered, hp]) (by simp [left, hp])
  | some p =>
    obtain ⟨⟨t, r⟩, rest⟩ := p
    have hmem : (s.unitIn x).memRsp = some r := by simp [unitIn, hp]
    cases hamo : r.user.isAmo
    · have hout : s.unit.coreRspO (s.unitIn x) =
          some (if s.unit.isScRsp (s.unitIn x) then s.unit.scRsp r else r) := by
        simp [CacheAmo.coreRspO, hmem, hamo]
      have hready : CacheAmo.memRspReadyO (s.unitIn x) = x.coreRspReady := by
        simp only [CacheAmo.memRspReadyO, hmem, Option.any_some, hamo, Bool.false_or]
        rfl
      cases hr : x.coreRspReady
      · exact .keep (by simp [newReceived, hp, hout, hr]) (by simp [newFiltered, hp, hout])
          (by simp [left, hp, hready, hr])
      · exact .receive t r rest hp hamo (by simp [newReceived, hp, hout, hr])
          (by simp [newFiltered, hp, hout]) (by simp [left, hp, hready, hr])
    · have hout : s.unit.coreRspO (s.unitIn x) = none := by simp [CacheAmo.coreRspO, hmem, hamo]
      have hready : CacheAmo.memRspReadyO (s.unitIn x) = true := by
        simp [CacheAmo.memRspReadyO, hmem, hamo]
      exact .filter t r rest hp hamo (by simp [newReceived, hp, hout])
        (by simp [newFiltered, hp, hout, hready]) (by simp [left, hp, hready])

theorem perm_of_presented {t : Txn} {r : TcdmRspChan} {rest : List (Txn × TcdmRspChan)}
    (h : s.presented x = some ((t, r), rest)) : s.inFlight.Perm ((t, r) :: rest) := by
  obtain ⟨i, -, hi⟩ := Option.bind_eq_some_iff.mp h
  exact Bag.perm_of_draw hi

theorem mem_of_presented {t : Txn} {r : TcdmRspChan} {rest : List (Txn × TcdmRspChan)}
    (h : s.presented x = some ((t, r), rest)) : (t, r) ∈ s.inFlight :=
  (perm_of_presented h).mem_iff.mpr List.mem_cons_self

/-- The response side moves responses and makes none. -/
theorem respond_perm : ((s.newReceived x).map Prod.fst ++ s.newFiltered x ++
    (s.left x).map Prod.fst).Perm (s.inFlight.map Prod.fst) := by
  cases respond_cases s x with
  | filter t r rest hpres hamo hrecv hfilt hleft =>
    rw [hrecv, hfilt, hleft]
    exact ((perm_of_presented hpres).map Prod.fst).symm
  | receive t r rest hpres hamo hrecv hfilt hleft =>
    rw [hrecv, hfilt, hleft]
    exact ((perm_of_presented hpres).map Prod.fst).symm
  | keep hrecv hfilt hleft =>
    rw [hrecv, hfilt, hleft]
    exact .refl _

theorem mem_inFlight_of_left {p : Txn × TcdmRspChan} (h : p ∈ s.left x) : p ∈ s.inFlight := by
  cases respond_cases s x with
  | filter t r rest hpres hamo hrecv hfilt hleft =>
    rw [hleft] at h
    exact (perm_of_presented hpres).mem_iff.mpr (List.mem_cons_of_mem _ h)
  | receive t r rest hpres hamo hrecv hfilt hleft =>
    rw [hleft] at h
    exact (perm_of_presented hpres).mem_iff.mpr (List.mem_cons_of_mem _ h)
  | keep hrecv hfilt hleft =>
    rw [hleft] at h
    exact h

/-- A response other than the presented one stays in flight. -/
theorem mem_left_of_ne {p : Txn × TcdmRspChan} (h : p ∈ s.inFlight)
    (hne : ∀ rest, s.presented x ≠ some (p, rest)) : p ∈ s.left x := by
  cases respond_cases s x with
  | filter t r rest hpres hamo hrecv hfilt hleft =>
    rw [hleft]
    rcases List.mem_cons.mp ((perm_of_presented hpres).mem_iff.mp h) with rfl | hm
    · exact absurd hpres (hne rest)
    · exact hm
  | receive t r rest hpres hamo hrecv hfilt hleft =>
    rw [hleft]
    rcases List.mem_cons.mp ((perm_of_presented hpres).mem_iff.mp h) with rfl | hm
    · exact absurd hpres (hne rest)
    · exact hm
  | keep hrecv hfilt hleft =>
    rw [hleft]
    exact h

end AmoSys

end Amo

end CachePool
