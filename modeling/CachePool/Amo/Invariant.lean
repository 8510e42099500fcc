import CachePool.Amo.System

/-!
# What the atomics unit guarantees in every run

No condition on the responses is needed for the order of accesses and the number of responses.

* `Structural` — requests are taken in order, none dropped or repeated; an atomic's read and write-back
  are adjacent; every access has one response, which reaches the crossbar unless it is a write-back's.
* `structural_next`, `structural_run` — its step and run lemmas.
* `exists_drained` — every run can be continued until all responses have arrived.
-/

set_option autoImplicit false

namespace CachePool

namespace Amo

namespace AmoSys

variable (s : AmoSys) (x : AmoIn)

/-- The atomic the unit works on is the request taken last. -/
def WorksOn (e : Taken) : Prop :=
  s.accepted.getLast? = some e ∧ isRmw e.req.amo = true ∧
    s.unit.amoRegs = (e.req.user, e.req.amo, e.req.addr, e.req.data)

/-- **The invariant of every run.** -/
structure Structural (reqs : List CoreReq) : Prop where
  /-- requests are taken in order, each once -/
  queue_eq : s.accepted.map Taken.req ++ s.queue.map CoreReq.chan = reqs.map CoreReq.chan
  /-- the accesses performed, in order; nothing comes between a read and its write-back -/
  trace_eq : s.performed.map Prod.fst ++ s.owed = layout 0 s.accepted
  /-- a request is forwarded as it was taken -/
  forwarded : ∀ i m, (.core i, m) ∈ s.performed →
    ∃ e, s.accepted[i]? = some e ∧ m = e.forward
  /-- every access has one response: received, filtered or in flight -/
  conserved : (s.received.map Prod.fst ++ s.filtered ++ s.inFlight.map Prod.fst).Perm
    (s.performed.map Prod.fst)
  /-- responses to requests are received with the user fields of the request -/
  received_core : ∀ t r, (t, r) ∈ s.received →
    ∃ i e, t = .core i ∧ s.accepted[i]? = some e ∧ r.user = e.req.user
  /-- responses to write-backs are filtered -/
  filtered_wb : ∀ t, t ∈ s.filtered → t.isWb = true
  inFlight_core : ∀ i r, (.core i, r) ∈ s.inFlight →
    ∃ e, s.accepted[i]? = some e ∧ r.user = e.req.user
  inFlight_wb : ∀ i r, (.wb i, r) ∈ s.inFlight → r.user.isAmo = true
  accepted_wf : ∀ e, e ∈ s.accepted → e.Wf
  worksOn : s.unit.stateQ ≠ .Idle → ∃ e, s.WorksOn e
  read_inFlight : s.unit.stateQ = .DoAMO → ∃ r, (.core (s.accepted.length - 1), r) ∈ s.inFlight
  wb_inFlight : s.unit.stateQ = .Wait → ∃ r, (.wb (s.accepted.length - 1), r) ∈ s.inFlight

variable {s x} {reqs : List CoreReq} {mem : Mem}

theorem structural_reset : Structural (reset mem reqs) reqs := by
  refine ⟨rfl, rfl, ?_, .refl _, ?_, ?_, ?_, ?_, ?_, ?_, ?_, ?_⟩
  · exact fun i m h => nomatch h
  · exact fun t r h => nomatch h
  · exact fun t h => nomatch h
  · exact fun i r h => nomatch h
  · exact fun i r h => nomatch h
  · exact fun e h => nomatch h
  · exact fun h => absurd rfl h
  · exact fun h => nomatch h
  · exact fun h => nomatch h

/-! ## Requests -/

theorem next_accepted : (s.next x).accepted = s.accepted ++ s.newAccepted x := rfl

theorem getElem?_next_accepted {i : Nat} {e : Taken} (h : s.accepted[i]? = some e) :
    (s.next x).accepted[i]? = some e := by
  obtain ⟨hi, -⟩ := List.getElem?_eq_some_iff.mp h
  rw [next_accepted, List.getElem?_append_left hi]
  exact h

theorem Structural.next_queue (I : Structural s reqs) :
    (s.next x).accepted.map Taken.req ++ (s.next x).queue.map CoreReq.chan =
      reqs.map CoreReq.chan := by
  have hq := I.queue_eq
  have hqueue : (s.next x).queue =
      if (s.unit.accepted (s.unitIn x)).isSome then s.queue.tail else s.queue := rfl
  rw [next_accepted, hqueue]
  cases request_cases s x with
  | take c tl e hhead haccept hreq hsc hidle hnew hperf =>
    rw [hhead] at hq
    rw [haccept, hnew, hhead]
    simpa [hreq] using hq
  | writeBack hstate hready haccept hnew hperf =>
    rw [haccept, hnew]
    simpa using hq
  | none haccept hstall hnew hperf =>
    rw [haccept, hnew]
    simpa using hq

/-- Without an access an atomic stays unfinished, or stays finished. -/
theorem midAmo_next (haccept : s.unit.accepted (s.unitIn x) = none)
    (hstall : s.unit.stateQ = .WriteBackAMO → x.memQReady = false) :
    (s.next x).midAmo = s.midAmo := by
  have hunit : (s.next x).unit = s.unit.next (s.unitIn x) := rfl
  unfold midAmo
  rw [hunit]
  cases hs : s.unit.stateQ with
  | Idle =>
    rw [CacheAmo.next_stateQ_of_idle hs haccept]
  | DoAMO =>
    rw [CacheAmo.next_stateQ_of_doAMO hs]
    split <;> rfl
  | WriteBackAMO =>
    have hready : (s.unitIn x).memQReady = false := hstall hs
    rw [CacheAmo.next_stateQ_of_writeBack hs, hready]
    rfl
  | Wait =>
    rw [CacheAmo.next_stateQ_of_wait hs]
    split <;> rfl

theorem midAmo_of_idle (h : s.unit.stateQ = .Idle) : s.midAmo = false := by
  simp [midAmo, h]

theorem next_midAmo_of_take {q : TcdmReqChan} (h : s.unit.accepted (s.unitIn x) = some q) :
    (s.next x).midAmo = isRmw q.amo := by
  have hst : (s.next x).unit.stateQ = _ := CacheAmo.next_stateQ_of_accepted h
  unfold midAmo
  rw [hst]
  cases isRmw q.amo <;> rfl

theorem next_stateQ_of_performed (hstate : s.unit.stateQ = .WriteBackAMO)
    (hready : x.memQReady = true) : (s.next x).unit.stateQ = .Wait := by
  have hst : (s.next x).unit.stateQ = _ := CacheAmo.next_stateQ_of_writeBack hstate
  have hr : (s.unitIn x).memQReady = true := hready
  rw [hst, hr]
  rfl

theorem Structural.next_trace (I : Structural s reqs) :
    (s.next x).performed.map Prod.fst ++ (s.next x).owed = layout 0 (s.next x).accepted := by
  have ht := I.trace_eq
  have hperf' : (s.next x).performed = s.performed ++ s.newPerformed x := rfl
  rw [next_accepted, hperf', owed]
  cases request_cases s x with
  | take c tl e hhead haccept hreq hsc hidle hnew hperf =>
    rw [owed, midAmo_of_idle hidle, if_neg Bool.false_ne_true, List.append_nil] at ht
    rw [next_midAmo_of_take haccept, next_accepted, hnew, hperf, layout_concat, List.map_append, ht,
      List.append_assoc, Nat.zero_add, txnsOf, hreq, List.length_append]
    cases isRmw c.chan.amo <;> simp
  | writeBack hstate hready haccept hnew hperf =>
    have hmid : (s.next x).midAmo = false := by
      simp [midAmo, next_stateQ_of_performed hstate hready]
    have howed : s.owed = [.wb (s.accepted.length - 1)] := by simp [owed, midAmo, hstate]
    rw [howed] at ht
    rw [hmid, hnew, hperf, List.append_nil, ← ht]
    simp
  | none haccept hstall hnew hperf =>
    rw [owed] at ht
    rw [midAmo_next haccept hstall, next_accepted, hnew, hperf, List.append_nil, List.append_nil]
    exact ht

theorem Structural.next_forwarded (I : Structural s reqs) (i : Nat) (m : TcdmReqChan)
    (h : (.core i, m) ∈ (s.next x).performed) :
    ∃ e, (s.next x).accepted[i]? = some e ∧ m = e.forward := by
  rcases List.mem_append.mp h with hold | hnew'
  · obtain ⟨e, he, hm⟩ := I.forwarded i m hold
    exact ⟨e, getElem?_next_accepted he, hm⟩
  · cases request_cases s x with
    | take c tl e hhead haccept hreq hsc hidle hnew hperf =>
      rw [hperf] at hnew'
      cases List.mem_singleton.mp hnew'
      exact ⟨e, by rw [next_accepted, hnew]; simp, rfl⟩
    | writeBack hstate hready haccept hnew hperf =>
      rw [hperf] at hnew'
      cases List.mem_singleton.mp hnew'
    | none haccept hstall hnew hperf =>
      rw [hperf] at hnew'
      cases hnew'

theorem Structural.next_wf (I : Structural s reqs) (e : Taken) (h : e ∈ (s.next x).accepted) :
    e.Wf := by
  rw [next_accepted] at h
  rcases List.mem_append.mp h with hold | hnew'
  · exact I.accepted_wf e hold
  · cases request_cases s x with
    | take c tl e' hhead haccept hreq hsc hidle hnew hperf =>
      rw [hnew] at hnew'
      obtain rfl := List.mem_singleton.mp hnew'
      rw [← hreq] at hsc
      exact ⟨by rw [hreq]; exact c.not_isAmo, by rw [hreq]; exact c.not_write,
        by rw [hreq]; exact c.strb_all, hsc⟩
    | writeBack hstate hready haccept hnew hperf =>
      rw [hnew] at hnew'
      cases hnew'
    | none haccept hstall hnew hperf =>
      rw [hnew] at hnew'
      cases hnew'

theorem worksOn_next_of_not_accepted (haccept : s.unit.accepted (s.unitIn x) = none) (e : Taken) :
    (s.next x).WorksOn e ↔ s.WorksOn e := by
  have hload : s.unit.loadAmo (s.unitIn x) = false := by simp [CacheAmo.loadAmo_eq, haccept]
  have hregs : (s.next x).unit.amoRegs = s.unit.amoRegs := CacheAmo.next_amoRegs_of_not_load hload
  have hacc : (s.next x).accepted = s.accepted := by simp [next_accepted, newAccepted, haccept]
  unfold WorksOn
  rw [hregs, hacc]

/-- The unit's registers hold the atomic it has just taken. -/
theorem worksOn_next_of_take {c : CoreReq} {e : Taken}
    (haccept : s.unit.accepted (s.unitIn x) = some c.chan) (hreq : e.req = c.chan)
    (hnew : s.newAccepted x = [e]) (hrmw : isRmw c.chan.amo = true) : (s.next x).WorksOn e := by
  have hregs : (s.next x).unit.amoRegs = _ := CacheAmo.next_amoRegs_of_load haccept hrmw
  refine ⟨by rw [next_accepted, hnew]; simp, by rw [hreq]; exact hrmw, ?_⟩
  rw [hregs, hreq, c.strb_all (ne_none_of_isRmw hrmw)]
  rfl

theorem Structural.next_worksOn (I : Structural s reqs) (h : (s.next x).unit.stateQ ≠ .Idle) :
    ∃ e, (s.next x).WorksOn e := by
  cases ha : s.unit.accepted (s.unitIn x) with
  | none =>
    have hbusy : s.unit.stateQ ≠ .Idle := fun hidle => h (CacheAmo.next_stateQ_of_idle hidle ha)
    obtain ⟨e, he⟩ := I.worksOn hbusy
    exact ⟨e, (worksOn_next_of_not_accepted ha e).mpr he⟩
  | some q =>
    cases request_cases s x with
    | take c tl e hhead haccept hreq hsc hidle hnew hperf =>
      have hst : (s.next x).unit.stateQ = _ := CacheAmo.next_stateQ_of_accepted haccept
      cases hrmw : isRmw c.chan.amo
      · rw [hst, hrmw] at h
        exact absurd rfl h
      · exact ⟨e, worksOn_next_of_take haccept hreq hnew hrmw⟩
    | writeBack hstate hready haccept hnew hperf =>
      rw [ha] at haccept
      cases haccept
    | none haccept hstall hnew hperf =>
      rw [ha] at haccept
      cases haccept

/-! ## Responses -/

theorem next_inFlight : (s.next x).inFlight =
    s.left x ++ (s.newPerformed x).map fun p => (p.1, s.answer x p.2) := rfl

theorem Structural.next_conserved (I : Structural s reqs) :
    ((s.next x).received.map Prod.fst ++ (s.next x).filtered ++
      (s.next x).inFlight.map Prod.fst).Perm ((s.next x).performed.map Prod.fst) := by
  have hc := I.conserved
  have hr := respond_perm (s := s) (x := x)
  have hrecv : (s.next x).received = s.received ++ s.newReceived x := rfl
  have hfilt : (s.next x).filtered = s.filtered ++ s.newFiltered x := rfl
  have hperf : (s.next x).performed = s.performed ++ s.newPerformed x := rfl
  have hnew : ((s.newPerformed x).map fun p => (p.1, s.answer x p.2)).map Prod.fst =
      (s.newPerformed x).map Prod.fst := by
    rw [List.map_map]
    rfl
  rw [hrecv, hfilt, hperf, next_inFlight, List.map_append, List.map_append, List.map_append, hnew]
  rw [List.perm_iff_count] at hc hr ⊢
  intro t
  have h1 := hc t
  have h2 := hr t
  simp only [List.count_append] at h1 h2 ⊢
  omega

/-- A response in flight that does not carry `is_amo` answers a request. -/
theorem Structural.core_of_inFlight (I : Structural s reqs) {t : Txn} {r : TcdmRspChan}
    (h : (t, r) ∈ s.inFlight) (hamo : r.user.isAmo = false) :
    ∃ i e, t = .core i ∧ s.accepted[i]? = some e ∧ r.user = e.req.user := by
  cases t with
  | core i =>
    obtain ⟨e, he, hu⟩ := I.inFlight_core i r h
    exact ⟨i, e, rfl, he, hu⟩
  | wb i =>
    rw [I.inFlight_wb i r h] at hamo
    cases hamo

/-- A response in flight carries the user fields of its request, whatever else the cycle takes. -/
theorem Structural.accepted_of_inFlight (I : Structural s reqs) {i : Nat} {r : TcdmRspChan}
    {e : Taken} (h : (.core i, r) ∈ s.inFlight) (he : (s.next x).accepted[i]? = some e) :
    s.accepted[i]? = some e ∧ r.user = e.req.user := by
  obtain ⟨e', he', hu⟩ := I.inFlight_core i r h
  have hsame := (getElem?_next_accepted (x := x) he').symm.trans he
  cases hsame
  exact ⟨he', hu⟩

theorem Structural.accepted_of_received (I : Structural s reqs) {i : Nat} {r : TcdmRspChan}
    {e : Taken} (h : (.core i, r) ∈ s.received) (he : (s.next x).accepted[i]? = some e) :
    s.accepted[i]? = some e := by
  obtain ⟨j, e', hj, he', -⟩ := I.received_core _ r h
  cases hj
  have hsame := (getElem?_next_accepted (x := x) he').symm.trans he
  cases hsame
  exact he'

theorem Structural.wb_of_inFlight (I : Structural s reqs) {t : Txn} {r : TcdmRspChan}
    (h : (t, r) ∈ s.inFlight) (hamo : r.user.isAmo = true) : t.isWb = true := by
  cases t with
  | core i =>
    obtain ⟨e, he, hu⟩ := I.inFlight_core i r h
    rw [hu, (I.accepted_wf e (List.mem_of_getElem? he)).not_isAmo] at hamo
    cases hamo
  | wb i => rfl

theorem Structural.next_received (I : Structural s reqs) (t : Txn) (r : TcdmRspChan)
    (h : (t, r) ∈ (s.next x).received) :
    ∃ i e, t = .core i ∧ (s.next x).accepted[i]? = some e ∧ r.user = e.req.user := by
  rcases List.mem_append.mp h with hold | hnew
  · obtain ⟨i, e, ht, he, hu⟩ := I.received_core t r hold
    exact ⟨i, e, ht, getElem?_next_accepted he, hu⟩
  · cases respond_cases s x with
    | filter t' r' rest hpres hamo hrecv hfilt hleft =>
      rw [hrecv] at hnew
      cases hnew
    | receive t' r' rest hpres hamo hrecv hfilt hleft =>
      rw [hrecv] at hnew
      cases List.mem_singleton.mp hnew
      obtain ⟨i, e, ht, he, hu⟩ := I.core_of_inFlight (mem_of_presented hpres) hamo
      refine ⟨i, e, ht, getElem?_next_accepted he, ?_⟩
      split
      · exact hu
      · exact hu
    | keep hrecv hfilt hleft =>
      rw [hrecv] at hnew
      cases hnew

theorem Structural.next_filtered (I : Structural s reqs) (t : Txn)
    (h : t ∈ (s.next x).filtered) : t.isWb = true := by
  rcases List.mem_append.mp h with hold | hnew
  · exact I.filtered_wb t hold
  · cases respond_cases s x with
    | filter t' r' rest hpres hamo hrecv hfilt hleft =>
      rw [hfilt] at hnew
      obtain rfl := List.mem_singleton.mp hnew
      exact I.wb_of_inFlight (mem_of_presented hpres) hamo
    | receive t' r' rest hpres hamo hrecv hfilt hleft =>
      rw [hfilt] at hnew
      cases hnew
    | keep hrecv hfilt hleft =>
      rw [hfilt] at hnew
      cases hnew

theorem Structural.next_inFlight_core (I : Structural s reqs) (i : Nat) (r : TcdmRspChan)
    (h : (.core i, r) ∈ (s.next x).inFlight) :
    ∃ e, (s.next x).accepted[i]? = some e ∧ r.user = e.req.user := by
  rcases List.mem_append.mp h with hold | hnew'
  · obtain ⟨e, he, hu⟩ := I.inFlight_core i r (mem_inFlight_of_left hold)
    exact ⟨e, getElem?_next_accepted he, hu⟩
  · obtain ⟨⟨t, m⟩, hm, heq⟩ := List.mem_map.mp hnew'
    cases heq
    have hperf' : (.core i, m) ∈ (s.next x).performed := List.mem_append_right _ hm
    obtain ⟨e, he, rfl⟩ := I.next_forwarded i m hperf'
    exact ⟨e, he, rfl⟩

theorem Structural.next_inFlight_wb (I : Structural s reqs) (i : Nat) (r : TcdmRspChan)
    (h : (.wb i, r) ∈ (s.next x).inFlight) : r.user.isAmo = true := by
  rcases List.mem_append.mp h with hold | hnew'
  · exact I.inFlight_wb i r (mem_inFlight_of_left hold)
  · obtain ⟨⟨t, m⟩, hm, heq⟩ := List.mem_map.mp hnew'
    cases heq
    cases request_cases s x with
    | take c tl e hhead haccept hreq hsc hidle hnew hperf =>
      rw [hperf] at hm
      cases List.mem_singleton.mp hm
    | writeBack hstate hready haccept hnew hperf =>
      rw [hperf] at hm
      cases List.mem_singleton.mp hm
      rfl
    | none haccept hstall hnew hperf =>
      rw [hperf] at hm
      cases hm

/-- The unit takes the response to the read of the atomic in progress when it is presented. -/
theorem readRsp_of_presented {e : Taken} (hw : s.WorksOn e) {t : Txn} {r : TcdmRspChan}
    {rest : List (Txn × TcdmRspChan)} (hpres : s.presented x = some ((t, r), rest))
    (hu : r.user = e.req.user) : s.unit.readRsp (s.unitIn x) = some r := by
  have huser : s.unit.amoUserQ = e.req.user := congrArg Prod.fst hw.2.2
  rw [CacheAmo.readRsp_eq_some_iff, huser, hu]
  exact ⟨by simp [unitIn, hpres], rfl, rfl⟩

theorem Structural.next_read_inFlight (I : Structural s reqs)
    (h : (s.next x).unit.stateQ = .DoAMO) :
    ∃ r, (.core ((s.next x).accepted.length - 1), r) ∈ (s.next x).inFlight := by
  rw [next_inFlight, next_accepted]
  cases request_cases s x with
  | take c tl e hhead haccept hreq hsc hidle hnew hperf =>
    rw [hnew, hperf]
    exact ⟨s.answer x e.forward, List.mem_append_right _ (by simp)⟩
  | writeBack hstate hready haccept hnew hperf =>
    rw [next_stateQ_of_performed hstate hready] at h
    cases h
  | none haccept hstall hnew hperf =>
    obtain ⟨hst, hnone⟩ := CacheAmo.doAMO_of_next haccept h
    obtain ⟨r, hr⟩ := I.read_inFlight hst
    obtain ⟨e, hw⟩ := I.worksOn (by rw [hst]; exact fun hc => nomatch hc)
    refine ⟨r, List.mem_append_left _ ?_⟩
    rw [hnew, List.append_nil]
    refine mem_left_of_ne hr (fun rest hpres => ?_)
    obtain ⟨e', he', hu⟩ := I.inFlight_core _ r hr
    rw [← List.getLast?_eq_getElem?, hw.1] at he'
    obtain rfl := Option.some.inj he'
    rw [readRsp_of_presented hw hpres hu] at hnone
    cases hnone

theorem Structural.next_wb_inFlight (I : Structural s reqs)
    (h : (s.next x).unit.stateQ = .Wait) :
    ∃ r, (.wb ((s.next x).accepted.length - 1), r) ∈ (s.next x).inFlight := by
  rw [next_inFlight, next_accepted]
  cases request_cases s x with
  | take c tl e hhead haccept hreq hsc hidle hnew hperf =>
    have hn : (s.next x).unit.stateQ = _ := CacheAmo.next_stateQ_of_accepted haccept
    rw [hn] at h
    split at h <;> cases h
  | writeBack hstate hready haccept hnew hperf =>
    rw [hnew, hperf, List.append_nil]
    exact ⟨s.answer x (wbReq s.unit), List.mem_append_right _ (by simp)⟩
  | none haccept hstall hnew hperf =>
    obtain ⟨hst, hnone⟩ : s.unit.stateQ = .Wait ∧
        (s.unitIn x).memRsp.any (·.user.isAmo) = false := by
      rcases CacheAmo.wait_of_next haccept h with ⟨hwb, hready⟩ | hwait
      · have hstalled : (s.unitIn x).memQReady = false := hstall hwb
        rw [hstalled] at hready
        cases hready
      · exact hwait
    obtain ⟨r, hr⟩ := I.wb_inFlight hst
    refine ⟨r, List.mem_append_left _ ?_⟩
    rw [hnew, List.append_nil]
    refine mem_left_of_ne hr (fun rest hpres => ?_)
    have hany : (s.unitIn x).memRsp.any (·.user.isAmo) = true := by
      simp [unitIn, hpres, I.inFlight_wb _ r hr]
    rw [hany] at hnone
    cases hnone

/-! ## Runs -/

theorem structural_next (I : Structural s reqs) : Structural (s.next x) reqs where
  queue_eq := I.next_queue
  trace_eq := I.next_trace
  forwarded := I.next_forwarded
  conserved := I.next_conserved
  received_core := I.next_received
  filtered_wb := I.next_filtered
  inFlight_core := I.next_inFlight_core
  inFlight_wb := I.next_inFlight_wb
  accepted_wf := I.next_wf
  worksOn := I.next_worksOn
  read_inFlight := I.next_read_inFlight
  wb_inFlight := I.next_wb_inFlight

theorem structural_run (mem : Mem) (reqs : List CoreReq) (xs : List AmoIn) :
    Structural ((machine mem reqs).run xs) reqs :=
  Machine.invariant_of_next (M := machine mem reqs) (P := fun s => Structural s reqs)
    structural_reset (fun _ _ I => structural_next I) xs

/-- Each request's response is received once it is neither owed nor in flight. -/
theorem Structural.received_of_drained (I : Structural s reqs) (hidle : s.unit.stateQ = .Idle)
    (hempty : s.inFlight = []) :
    (s.received.map Prod.fst).Perm ((List.range s.accepted.length).map Txn.core) := by
  have hc := I.conserved
  have ht := I.trace_eq
  rw [owed, midAmo_of_idle hidle, if_neg Bool.false_ne_true, List.append_nil] at ht
  rw [hempty, List.map_nil, List.append_nil, ht] at hc
  have hf := hc.filter (fun t => !t.isWb)
  rw [filter_layout, List.filter_append] at hf
  have hrecv : (s.received.map Prod.fst).filter (fun t => !t.isWb) = s.received.map Prod.fst := by
    refine List.filter_eq_self.mpr (fun t hm => ?_)
    obtain ⟨⟨t', r⟩, hr, rfl⟩ := List.mem_map.mp hm
    obtain ⟨i, e, rfl, -, -⟩ := I.received_core t' r hr
    rfl
  have hfilt : s.filtered.filter (fun t => !t.isWb) = [] := by
    refine List.filter_eq_nil_iff.mpr (fun t hm => ?_)
    simp [I.filtered_wb t hm]
  rwa [hrecv, hfilt, List.append_nil] at hf

/-- The cycle that drains the unit: nothing new, everything ready, the oldest response presented. -/
def drain : AmoIn := ⟨false, true, some 0, true, 0⟩

/-- What is left to do before all responses have arrived. -/
def pendingWork (s : AmoSys) : Nat := s.inFlight.length + if s.midAmo then 2 else 0

theorem accepted_drain : s.unit.accepted (s.unitIn drain) = none := by
  simp [CacheAmo.accepted, unitIn, drain]

theorem left_drain : s.left drain = s.inFlight.tail := by
  cases hf : s.inFlight with
  | nil => simp [left, presented, drain, hf]
  | cons p l =>
    have hpres : s.presented drain = some (p, l) := by simp [presented, drain, hf]
    have hready : CacheAmo.memRspReadyO (s.unitIn drain) = true := by
      simp [CacheAmo.memRspReadyO, unitIn, drain]
    simp [left, hpres, hready]

theorem pendingWork_drain (I : Structural s reqs)
    (h : ¬ (s.unit.stateQ = .Idle ∧ s.inFlight = [])) :
    pendingWork (s.next drain) < pendingWork s := by
  have hlen : s.inFlight.tail.length = s.inFlight.length - 1 := List.length_tail
  unfold pendingWork
  rw [next_inFlight, left_drain, List.length_append, List.length_map, hlen]
  cases request_cases s drain with
  | take c tl e hhead haccept hreq hsc hidle hnew hperf =>
    rw [accepted_drain] at haccept
    cases haccept
  | writeBack hstate hready haccept hnew hperf =>
    have hmid : (s.next drain).midAmo = false := by
      simp [midAmo, next_stateQ_of_performed hstate hready]
    have hmid0 : s.midAmo = true := by simp [midAmo, hstate]
    rw [hmid, hmid0, hperf]
    simp only [List.length_singleton, if_true, Bool.false_eq_true, if_false]
    omega
  | none haccept hstall hnew hperf =>
    have hpos : 0 < s.inFlight.length := by
      cases hs : s.unit.stateQ with
      | Idle =>
        rcases Nat.eq_zero_or_pos s.inFlight.length with h0 | hpos
        · exact absurd ⟨hs, List.length_eq_zero_iff.mp h0⟩ h
        · exact hpos
      | DoAMO =>
        obtain ⟨r, hr⟩ := I.read_inFlight hs
        exact List.length_pos_of_mem hr
      | Wait =>
        obtain ⟨r, hr⟩ := I.wb_inFlight hs
        exact List.length_pos_of_mem hr
      | WriteBackAMO =>
        have := hstall hs
        cases this
    rw [midAmo_next haccept hstall, hperf, List.length_nil]
    omega

/-- With nothing left to do no atomic is in progress. -/
theorem Structural.idle_of_pendingWork (I : Structural s reqs) (h : pendingWork s = 0) :
    s.unit.stateQ = .Idle ∧ s.inFlight = [] := by
  refine Classical.byContradiction fun hne => ?_
  have hlt := pendingWork_drain I hne
  omega

/-- **Every run can be continued until all responses have arrived.** -/
theorem exists_drained (mem : Mem) (reqs : List CoreReq) (xs : List AmoIn) :
    ∃ ys, ((machine mem reqs).run (xs ++ ys)).accepted = ((machine mem reqs).run xs).accepted ∧
      ((machine mem reqs).run (xs ++ ys)).unit.stateQ = .Idle ∧
      ((machine mem reqs).run (xs ++ ys)).inFlight = [] := by
  have hdown : ∀ xs, pendingWork ((machine mem reqs).run xs) ≠ 0 →
      pendingWork (((machine mem reqs).run xs).next drain) <
        pendingWork ((machine mem reqs).run xs) := by
    intro xs hne
    refine pendingWork_drain (structural_run mem reqs xs) (fun h => hne ?_)
    rw [pendingWork, h.2, midAmo_of_idle h.1]
    rfl
  obtain ⟨k, hk⟩ := Machine.exists_drained (M := machine mem reqs) hdown xs
  refine ⟨List.replicate k drain, ?_, (structural_run mem reqs _).idle_of_pendingWork hk⟩
  refine Machine.run_append_replicate (M := machine mem reqs) accepted (fun s => ?_) xs k
  show (s.next drain).accepted = s.accepted
  rw [next_accepted, newAccepted, accepted_drain]
  exact List.append_nil _

end AmoSys

end Amo

end CachePool
