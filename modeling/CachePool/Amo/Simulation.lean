import CachePool.Amo.Invariant

/-!
# The atomics unit refines an atomic memory

The abstract state is an atomic memory that has performed the settled requests.  A request other than
an atomic is settled when it is taken, an atomic when its write-back is performed.

* `Values` — the simulation relation, with what the unit has written and what it has returned.
* `values_next` — every cycle in which no response is mistaken for another keeps it.
* `amo_atomic` — order, adjacency, number and filtering of responses in every run; the values in every
  run that meets the condition.
* `amo_takes_foreign_word` — a response of another tile with the same core and request numbers is taken
  for the read of the atomic, and a wrong word is written back.
-/

set_option autoImplicit false

namespace CachePool

namespace Amo

namespace AmoSys

/-- **The simulation relation.**  `mem0` is the memory after reset. -/
structure Values (mem0 : Mem) (s : AmoSys) : Prop where
  mem_eq : s.mem = atomicRun mem0 s.settled
  /-- the result waiting for its write-back -/
  result_eq : s.unit.stateQ = .WriteBackAMO → ∀ e, s.WorksOn e → s.unit.amoResultQ =
    amoFunction e.req.amo (atomicRun mem0 s.settled (wordOf e.req.addr)) e.req.data
  /-- an atomic has written its function of the word it found -/
  written : ∀ i m, (.wb i, m) ∈ s.performed → ∃ e old, s.accepted[i]? = some e ∧
    (atomicOlds mem0 s.accepted)[i]? = some old ∧ m.write = true ∧ m.addr = e.req.addr ∧
    m.strb = 0b1111 ∧ m.data = amoFunction e.req.amo old e.req.data
  /-- the read of an atomic answers with the word it found -/
  inFlight_old : ∀ i r e, (.core i, r) ∈ s.inFlight → s.accepted[i]? = some e →
    isRmw e.req.amo = true → (atomicOlds mem0 s.accepted)[i]? = some r.data
  /-- and so does what the requester receives -/
  received_old : ∀ i r e, (.core i, r) ∈ s.received → s.accepted[i]? = some e →
    isRmw e.req.amo = true → (atomicOlds mem0 s.accepted)[i]? = some r.data

variable {s : AmoSys} {x : AmoIn} {mem0 : Mem} {reqs : List CoreReq}

theorem values_reset : Values mem0 (reset mem0 reqs) := by
  refine ⟨rfl, ?_, ?_, ?_, ?_⟩
  · exact fun h => nomatch h
  · exact fun i m h => nomatch h
  · exact fun i r e h => nomatch h
  · exact fun i r e h => nomatch h

/-! ## The settled requests -/

theorem settled_of_idle (h : s.unit.stateQ = .Idle) : s.settled = s.accepted := by
  rw [settled, midAmo_of_idle h, if_neg Bool.false_ne_true]

/-- The atomic in progress is the one request that is not settled. -/
theorem accepted_of_midAmo {e : Taken} (hmid : s.midAmo = true) (hw : s.WorksOn e) :
    s.accepted = s.settled ++ [e] := by
  rw [settled, if_pos hmid]
  exact (List.dropLast_append_getLast? e hw.1).symm

theorem length_accepted_sub_one {e : Taken} (hmid : s.midAmo = true) (hw : s.WorksOn e) :
    s.accepted.length - 1 = s.settled.length := by
  rw [accepted_of_midAmo hmid hw]
  simp

theorem settled_next_of_none (haccept : s.unit.accepted (s.unitIn x) = none)
    (hstall : s.unit.stateQ = .WriteBackAMO → x.memQReady = false)
    (hnew : s.newAccepted x = []) : (s.next x).settled = s.settled := by
  unfold settled
  rw [midAmo_next haccept hstall, next_accepted, hnew, List.append_nil]

/-- A write-back goes to the address of the atomic in progress. -/
theorem Structural.worksOn_of_writeBack (I : Structural s reqs)
    (h : s.unit.stateQ = .WriteBackAMO) :
    s.midAmo = true ∧ ∃ e, s.WorksOn e ∧ s.unit.addrQ = e.req.addr := by
  obtain ⟨e, hw⟩ := I.worksOn (by rw [h]; exact fun hc => nomatch hc)
  exact ⟨by simp [midAmo, h], e, hw, congrArg (·.2.2.1) hw.2.2⟩

/-- The word the atomic in progress has found. -/
theorem old_of_midAmo {e : Taken} (hmid : s.midAmo = true) (hw : s.WorksOn e) :
    (atomicOlds mem0 s.accepted)[s.accepted.length - 1]? =
      some (atomicRun mem0 s.settled (wordOf e.req.addr)) := by
  rw [length_accepted_sub_one hmid hw, accepted_of_midAmo hmid hw]
  exact getElem?_atomicOlds_concat mem0 s.settled e

/-! ## The memory and the result -/

theorem access_wbReq (m : Mem) (u : CacheAmo) : m.access (wbReq u) = m.store u.addrQ u.amoResultQ := by
  rw [Mem.access, wbReq, if_pos rfl, mergeStrb_all]

theorem Values.next_mem (V : Values mem0 s) (I : Structural s reqs) :
    (s.next x).mem = atomicRun mem0 (s.next x).settled := by
  have hmem : (s.next x).mem = (s.newPerformed x).foldl (fun m p => m.access p.2) s.mem := rfl
  rw [hmem]
  cases request_cases s x with
  | take c tl e hhead haccept hreq hsc hidle hnew hperf =>
    have hm := V.mem_eq
    rw [settled_of_idle hidle] at hm
    have hmid := next_midAmo_of_take haccept
    have hwf := I.next_wf (x := x) e (by rw [next_accepted, hnew]; simp)
    rw [hperf, settled, hmid, next_accepted, hnew, List.foldl_cons, List.foldl_nil]
    cases hrmw : isRmw c.chan.amo
    · -- settled at once
      rw [if_neg Bool.false_ne_true, atomicRun_concat, ← hm, atomicStep, hreq, hrmw]
      rfl
    · -- the read of an atomic leaves the memory unchanged
      have hread : e.forward.write = false := hwf.forward_write_of_rmw (by rw [hreq]; exact hrmw)
      rw [if_pos rfl, List.dropLast_concat, ← hm, Mem.access, hread]
      rfl
  | writeBack hstate hready haccept hnew hperf =>
    obtain ⟨hmid, e, hw, haddr⟩ := I.worksOn_of_writeBack hstate
    have hmid' : (s.next x).midAmo = false := by
      simp [midAmo, next_stateQ_of_performed hstate hready]
    rw [settled, hmid', if_neg Bool.false_ne_true, next_accepted, hnew, List.append_nil,
      accepted_of_midAmo hmid hw, atomicRun_concat, ← V.mem_eq, atomicStep, if_pos hw.2.1, hperf,
      List.foldl_cons, List.foldl_nil, access_wbReq, haddr, V.result_eq hstate e hw, V.mem_eq]
  | none haccept hstall hnew hperf =>
    rw [hperf, settled_next_of_none haccept hstall hnew]
    exact V.mem_eq

/-- In `DoAMO` the response taken for the read's is the read's, so the result is right. -/
theorem Values.result_of_read (V : Values mem0 s) (hown : s.OwnResponse x)
    (hst : s.unit.stateQ = .DoAMO) {r : TcdmRspChan}
    (hread : s.unit.readRsp (s.unitIn x) = some r) {e : Taken} (hw : s.WorksOn e) :
    (s.next x).unit.amoResultQ =
      amoFunction e.req.amo (atomicRun mem0 s.settled (wordOf e.req.addr)) e.req.data := by
  have hmid : s.midAmo = true := by simp [midAmo, hst]
  obtain ⟨hrsp, hcore, hid⟩ := CacheAmo.readRsp_eq_some_iff.mp hread
  obtain ⟨⟨⟨t, r'⟩, rest⟩, hpres, rfl⟩ := Option.map_eq_some_iff.mp hrsp
  obtain rfl : t = _ := (hown _ hpres).1 hst hcore hid
  have hlast : s.accepted[s.accepted.length - 1]? = some e := by
    rw [← List.getLast?_eq_getElem?]
    exact hw.1
  have hold := V.inFlight_old _ r' e (mem_of_presented hpres) hlast hw.2.1
  rw [old_of_midAmo hmid hw] at hold
  have hres : (s.next x).unit.amoResultQ = _ := CacheAmo.next_amoResultQ_of_doAMO hst hread
  have hop : s.unit.amoOpQ = e.req.amo := congrArg (·.2.1) hw.2.2
  have hoperand : s.unit.operandBQ = e.req.data := congrArg (·.2.2.2) hw.2.2
  rw [hres, hop, hoperand, amoAlu_eq hw.2.1, Option.some.inj hold]

theorem Values.next_result (V : Values mem0 s) (hown : s.OwnResponse x)
    (h : (s.next x).unit.stateQ = .WriteBackAMO) (e : Taken) (hw' : (s.next x).WorksOn e) :
    (s.next x).unit.amoResultQ =
      amoFunction e.req.amo (atomicRun mem0 (s.next x).settled (wordOf e.req.addr)) e.req.data := by
  cases request_cases s x with
  | take c tl e' hhead haccept hreq hsc hidle hnew hperf =>
    have hn : (s.next x).unit.stateQ = _ := CacheAmo.next_stateQ_of_accepted haccept
    rw [hn] at h
    split at h <;> cases h
  | writeBack hstate hready haccept hnew hperf =>
    rw [next_stateQ_of_performed hstate hready] at h
    cases h
  | none haccept hstall hnew hperf =>
    have hw := (worksOn_next_of_not_accepted haccept e).mp hw'
    rw [settled_next_of_none haccept hstall hnew]
    rcases CacheAmo.writeBack_of_next haccept h with ⟨hst, r, hread⟩ | ⟨hst, -⟩
    · exact V.result_of_read hown hst hread hw
    · have hres : (s.next x).unit.amoResultQ = s.unit.amoResultQ :=
        CacheAmo.next_amoResultQ_of_not_doAMO (by rw [hst]; exact fun hc => nomatch hc)
      rw [hres]
      exact V.result_eq hst e hw

theorem Values.next_written (V : Values mem0 s) (I : Structural s reqs) (i : Nat) (m : TcdmReqChan)
    (h : (.wb i, m) ∈ (s.next x).performed) : ∃ e old, (s.next x).accepted[i]? = some e ∧
      (atomicOlds mem0 (s.next x).accepted)[i]? = some old ∧ m.write = true ∧
      m.addr = e.req.addr ∧ m.strb = 0b1111 ∧ m.data = amoFunction e.req.amo old e.req.data := by
  rcases List.mem_append.mp h with hbefore | hnow
  · obtain ⟨e, old, he, hold, hm⟩ := V.written i m hbefore
    exact ⟨e, old, getElem?_next_accepted he, getElem?_atomicOlds_append hold _, hm⟩
  · cases request_cases s x with
    | take c tl e hhead haccept hreq hsc hidle hnew hperf =>
      rw [hperf] at hnow
      cases List.mem_singleton.mp hnow
    | writeBack hstate hready haccept hnew hperf =>
      rw [hperf] at hnow
      cases List.mem_singleton.mp hnow
      obtain ⟨hmid, e, hw, haddr⟩ := I.worksOn_of_writeBack hstate
      rw [next_accepted, hnew, List.append_nil]
      refine ⟨e, _, ?_, old_of_midAmo hmid hw, rfl, haddr, rfl, V.result_eq hstate e hw⟩
      rw [← List.getLast?_eq_getElem?]
      exact hw.1
    | none haccept hstall hnew hperf =>
      rw [hperf] at hnow
      cases hnow

/-! ## The words returned -/

/-- What the read of an atomic answers does not change with later requests. -/
theorem Values.old_of_inFlight (V : Values mem0 s) (I : Structural s reqs) {i : Nat}
    {r : TcdmRspChan} {e : Taken} (h : (.core i, r) ∈ s.inFlight)
    (he : (s.next x).accepted[i]? = some e) (hrmw : isRmw e.req.amo = true) :
    (atomicOlds mem0 (s.next x).accepted)[i]? = some r.data :=
  getElem?_atomicOlds_append
    (V.inFlight_old i r e h (I.accepted_of_inFlight h he).1 hrmw) _

theorem Values.next_inFlight (V : Values mem0 s) (I : Structural s reqs) (i : Nat) (r : TcdmRspChan)
    (e : Taken) (h : (.core i, r) ∈ (s.next x).inFlight) (he : (s.next x).accepted[i]? = some e)
    (hrmw : isRmw e.req.amo = true) :
    (atomicOlds mem0 (s.next x).accepted)[i]? = some r.data := by
  rcases List.mem_append.mp h with hbefore | hnow
  · exact V.old_of_inFlight I (mem_inFlight_of_left hbefore) he hrmw
  · obtain ⟨⟨t, m⟩, hm, heq⟩ := List.mem_map.mp hnow
    cases heq
    cases request_cases s x with
    | take c tl e' hhead haccept hreq hsc hidle hnew hperf =>
      rw [hperf] at hm
      cases List.mem_singleton.mp hm
      have hwf := I.next_wf e (List.mem_of_getElem? he)
      rw [next_accepted, hnew] at he ⊢
      rw [List.getElem?_append_right (Nat.le_refl _), Nat.sub_self] at he
      obtain rfl := Option.some.inj he
      have hdata : (s.answer x e'.forward).data = s.mem (wordOf e'.req.addr) := by
        unfold answer
        rw [hwf.forward_write_of_rmw hrmw]
        rfl
      rw [getElem?_atomicOlds_concat, hdata, V.mem_eq, settled_of_idle hidle]
    | writeBack hstate hready haccept hnew hperf =>
      rw [hperf] at hm
      cases List.mem_singleton.mp hm
    | none haccept hstall hnew hperf =>
      rw [hperf] at hm
      cases hm

/-- The response of an atomic is forwarded unchanged. -/
theorem isScRsp_of_ownResponse (hown : s.OwnResponse x) {t : Txn} {r : TcdmRspChan}
    {rest : List (Txn × TcdmRspChan)} (hpres : s.presented x = some ((t, r), rest))
    (hatomic : s.ofAtomic t = true) : s.unit.isScRsp (s.unitIn x) = false := by
  have hne := (hown _ hpres).2 hatomic
  have hrsp : (s.unitIn x).memRsp = some r := by simp [unitIn, hpres]
  unfold CacheAmo.isScRsp
  rw [hrsp]
  cases hq : s.unit.scQ
  · rfl
  · by_cases hcore : s.unit.scUserQ.coreId = r.user.coreId
    · simp [hne hq hcore]
    · simp [hcore]

theorem Values.next_received (V : Values mem0 s) (I : Structural s reqs) (hown : s.OwnResponse x)
    (i : Nat) (r : TcdmRspChan) (e : Taken) (h : (.core i, r) ∈ (s.next x).received)
    (he : (s.next x).accepted[i]? = some e) (hrmw : isRmw e.req.amo = true) :
    (atomicOlds mem0 (s.next x).accepted)[i]? = some r.data := by
  rcases List.mem_append.mp h with hbefore | hnow
  · have he' := I.accepted_of_received hbefore he
    exact getElem?_atomicOlds_append (V.received_old i r e hbefore he' hrmw) _
  · cases respond_cases s x with
    | filter t' r' rest hpres hamo hrecv hfilt hleft =>
      rw [hrecv] at hnow
      cases hnow
    | receive t' r' rest hpres hamo hrecv hfilt hleft =>
      have hmem := mem_of_presented hpres
      rw [hrecv] at hnow
      cases List.mem_singleton.mp hnow
      have hold := V.old_of_inFlight I hmem he hrmw
      obtain ⟨he', -⟩ := I.accepted_of_inFlight hmem he
      have hsc := isScRsp_of_ownResponse hown hpres (by simp [ofAtomic, he', hrmw])
      rw [hsc, if_neg Bool.false_ne_true]
      exact hold
    | keep hrecv hfilt hleft =>
      rw [hrecv] at hnow
      cases hnow

/-! ## Runs -/

theorem values_next (V : Values mem0 s) (I : Structural s reqs) (hown : s.OwnResponse x) :
    Values mem0 (s.next x) where
  mem_eq := V.next_mem I
  result_eq := V.next_result hown
  written := V.next_written I
  inFlight_old := V.next_inFlight I
  received_old := V.next_received I hown

theorem values_run (mem0 : Mem) (reqs : List CoreReq) (xs : List AmoIn)
    (h : (machine mem0 reqs).Meets OwnResponse xs) : Values mem0 ((machine mem0 reqs).run xs) :=
  Machine.invariant_upon (P := Values mem0) (structural_run mem0 reqs) values_reset
    (fun _ _ I V hx => values_next V I hx) xs h

/-- **Atomics in every run.**  Requests are taken in order and none twice, nothing comes between the
read and the write-back of an atomic, the responses to write-backs alone are filtered, and each request
can still receive its one response.  If no response is mistaken for another, then memory and responses
are those of an atomic memory. -/
theorem amo_atomic (mem0 : Mem) (reqs : List CoreReq) (xs : List AmoIn) :
    Structural ((machine mem0 reqs).run xs) reqs ∧
    (∃ ys, ((machine mem0 reqs).run (xs ++ ys)).accepted = ((machine mem0 reqs).run xs).accepted ∧
      ((machine mem0 reqs).run (xs ++ ys)).inFlight = [] ∧
      (((machine mem0 reqs).run (xs ++ ys)).received.map Prod.fst).Perm
        ((List.range ((machine mem0 reqs).run xs).accepted.length).map Txn.core)) ∧
    ((machine mem0 reqs).Meets OwnResponse xs → Values mem0 ((machine mem0 reqs).run xs)) := by
  refine ⟨structural_run mem0 reqs xs, ?_, values_run mem0 reqs xs⟩
  obtain ⟨ys, hacc, hidle, hempty⟩ := exists_drained mem0 reqs xs
  have hrecv := (structural_run mem0 reqs (xs ++ ys)).received_of_drained hidle hempty
  rw [hacc] at hrecv
  exact ⟨ys, hacc, hempty, hrecv⟩

/-- A load of core 0 of a tile, with request number 0. -/
def loadReq (tile : Nat) (addr : BitVec 32) : CoreReq where
  chan := ⟨addr, false, .AMONone, 0, 0b1111, ⟨0, tile, false, 0, false⟩⟩
  not_isAmo := rfl
  not_write := fun _ => rfl
  strb_all := fun _ => rfl

/-- An atomic addition of core 0 of a tile, with request number 0. -/
def amoAddReq (tile : Nat) (addr data : BitVec 32) : CoreReq where
  chan := ⟨addr, false, .AMOAdd, data, 0b1111, ⟨0, tile, false, 0, false⟩⟩
  not_isAmo := rfl
  not_write := fun _ => rfl
  strb_all := fun _ => rfl

/-- The second word of memory holds 7. -/
def memSeven : Mem := fun w => if w = 1 then 7 else 0

/-- Each of the two responses is presented when it is the unit's turn. -/
theorem amo_atomic_in_order :
    Values memSeven ((machine memSeven [loadReq 1 4, amoAddReq 0 0 1]).run
      [⟨true, true, none, true, 0⟩, ⟨true, true, some 0, true, 0⟩, ⟨true, true, some 0, true, 0⟩,
        ⟨true, true, none, true, 0⟩, ⟨true, true, some 0, true, 0⟩]) :=
  (amo_atomic memSeven [loadReq 1 4, amoAddReq 0 0 1] _).2.2 (by decide)

/-- The response to the load of tile 1 is presented while the atomic of tile 0 waits for its read: the
unit adds to the loaded word and writes 8 where 1 belongs. -/
theorem amo_takes_foreign_word :
    ¬ Values memSeven ((machine memSeven [loadReq 1 4, amoAddReq 0 0 1]).run
      [⟨true, true, none, true, 0⟩, ⟨true, true, none, true, 0⟩, ⟨true, true, some 0, true, 0⟩,
        ⟨true, true, none, true, 0⟩]) := by
  intro V
  have hword := congrFun V.mem_eq 0
  revert hword
  decide

end AmoSys

end Amo

end CachePool
