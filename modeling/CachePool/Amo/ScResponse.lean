import CachePool.Amo.Exclusive

/-!
# The responses to store-conditionals

One record (`sc_q`, `sc_user_q`, `sc_successful_q`) holds the outcome of the store-conditional presented
last, until a response with its core and request numbers passes.

* `Structural.count_core` — every request taken has one response, received or in flight.
* `ScRspContract` — a store-conditional is answered with 0 if it has written and with 1 if not, and every
  other response leaves the unit as the memory presents it.
* `OwnRecord`, `OtherUnrecorded` — the record stands for the response it is compared with.
* `sc_responses` — every run has one response for each store-conditional, and those whose cycles meet the two
  conditions keep the contract.
* `sc_responses_fail` — three short runs that break it.
-/

set_option autoImplicit false

namespace CachePool

namespace Amo

namespace AmoSys

variable (s : AmoSys) (x : AmoIn)

/-- The response to each store-conditional received so far tells whether it has written. -/
structure ScAnswered : Prop where
  zero_iff : ∀ i e r, s.accepted[i]? = some e → e.req.amo = .AMOSC → (.core i, r) ∈ s.received →
    (r.data = 0 ↔ ∃ m, (.core i, m) ∈ s.performed ∧ m.write = true)
  one_of_ne : ∀ i e r, s.accepted[i]? = some e → e.req.amo = .AMOSC → (.core i, r) ∈ s.received →
    r.data ≠ 0 → r.data = 1

/-- The response delivered in this cycle, if it is not to a store-conditional, is the one presented. -/
def Unmodified : Prop :=
  ∀ i e r, s.accepted[i]? = some e → e.req.amo ≠ .AMOSC → (.core i, r) ∈ s.newReceived x →
    ∃ rest, s.presented x = some ((.core i, r), rest)

/-- What the crossbar may rely on in a run. -/
structure ScRspContract (mem : Mem) (reqs : List CoreReq) (xs : List AmoIn) : Prop where
  answered : ScAnswered ((machine mem reqs).run xs)
  unmodified : (machine mem reqs).Meets Unmodified xs

/-- The access is a request, and not a store-conditional. -/
def ofOther (t : Txn) : Bool :=
  match t with
  | .core i => s.accepted[i]?.any fun e => decide (e.req.amo ≠ .AMOSC)
  | .wb _ => false

/-- A response taken for another request does not have the core and request numbers of the record while
that is awaited. -/
def OtherUnrecorded : Prop :=
  ∀ p, s.presented x = some p → x.coreRspReady = true → s.ofOther p.1.1 = true → s.unit.scQ = true →
    s.unit.scUserQ.coreId = p.1.2.user.coreId → s.unit.scUserQ.reqId ≠ p.1.2.user.reqId

instance : Decidable (s.OtherUnrecorded x) := by
  unfold OtherUnrecorded
  exact Option.decidableForallMem (s.presented x)

/-- The outcomes received so far are those of the record's store-conditionals. -/
structure Outcomes : Prop where
  recorded : s.Recorded
  reported : ∀ i e r, s.accepted[i]? = some e → e.req.amo = .AMOSC → (.core i, r) ∈ s.received →
    r.data = if e.scOk then 0 else 1

variable {s x} {mem : Mem} {reqs : List CoreReq}

/-! ## One response for each request -/

theorem count_layout_core (es : List Taken) {i : Nat} (hi : i < es.length) :
    (layout 0 es).count (.core i) = 1 := by
  have hfilter : (layout 0 es).count (.core i) =
      ((layout 0 es).filter (fun t => !t.isWb)).count (.core i) := (List.count_filter rfl).symm
  rw [hfilter, filter_layout]
  apply List.count_eq_one_of_mem
  · exact List.nodup_range.map (fun a b hab => Txn.core.inj hab)
  · exact List.mem_map.mpr ⟨i, List.mem_range.mpr hi, rfl⟩

theorem not_core_mem_owed (i : Nat) : Txn.core i ∉ s.owed := by
  unfold owed
  split <;> simp

/-- A request taken is performed once. -/
theorem Structural.count_performed (I : Structural s reqs) {i : Nat} (hi : i < s.accepted.length) :
    (s.performed.map Prod.fst).count (.core i) = 1 := by
  have hcount := congrArg (List.count (.core i)) I.trace_eq
  rw [List.count_append, List.count_eq_zero_of_not_mem (not_core_mem_owed i),
    count_layout_core s.accepted hi] at hcount
  exact hcount

/-- **One response for each request.**  It has been received or is in flight. -/
theorem Structural.count_core (I : Structural s reqs) {i : Nat} (hi : i < s.accepted.length) :
    (s.received.map Prod.fst).count (.core i) + (s.inFlight.map Prod.fst).count (.core i) = 1 := by
  have hcount := I.conserved.count_eq (.core i)
  have hfilt : s.filtered.count (.core i) = 0 := by
    apply List.count_eq_zero_of_not_mem
    intro hmem
    have hwb := I.filtered_wb _ hmem
    cases hwb
  rw [List.count_append, List.count_append, hfilt, I.count_performed hi] at hcount
  omega

/-- A store-conditional has written iff it has succeeded. -/
theorem Structural.written_iff (I : Structural s reqs) {i : Nat} {e : Taken}
    (he : s.accepted[i]? = some e) (hamo : e.req.amo = .AMOSC) :
    (∃ m, (.core i, m) ∈ s.performed ∧ m.write = true) ↔ e.scOk = true := by
  have hwf := I.accepted_wf e (List.mem_of_getElem? he)
  constructor
  · rintro ⟨m, hm, hw⟩
    obtain ⟨e', he', rfl⟩ := I.forwarded i m hm
    rw [he] at he'
    cases he'
    rwa [hwf.forward_write_of_sc hamo] at hw
  · intro hok
    obtain ⟨hi, -⟩ := List.getElem?_eq_some_iff.mp he
    have hmem : Txn.core i ∈ s.performed.map Prod.fst := by
      apply List.count_pos_iff.mp
      rw [I.count_performed hi]
      exact Nat.one_pos
    obtain ⟨⟨t, m⟩, hm, rfl⟩ := List.mem_map.mp hmem
    obtain ⟨e', he', rfl⟩ := I.forwarded i m hm
    rw [he] at he'
    cases he'
    exact ⟨e.forward, hm, by rw [hwf.forward_write_of_sc hamo, hok]⟩

/-! ## Outcomes -/

theorem outcomes_reset : Outcomes (reset mem reqs) where
  recorded := ⟨(fun _ _ h => nomatch h), (fun _ h => nomatch h), (fun h => nomatch h)⟩
  reported := fun _ _ _ h => nomatch h

theorem outcomes_next (I : Outcomes s) (J : Structural s reqs) (hx : s.OwnRecord x) :
    Outcomes (s.next x) where
  recorded := recorded_next I.recorded
  reported := by
    intro i e r he hamo h
    rcases List.mem_append.mp h with hbefore | hnow
    · exact I.reported i e r (J.accepted_of_received hbefore he) hamo hbefore
    · exact I.recorded.data_of_newReceived J hx he hamo hnow

theorem Outcomes.answered (I : Outcomes s) (J : Structural s reqs) : ScAnswered s where
  zero_iff := by
    intro i e r he hamo h
    rw [I.reported i e r he hamo h, J.written_iff he hamo]
    cases e.scOk
    · simp
    · simp
  one_of_ne := by
    intro i e r he hamo h hne
    rw [I.reported i e r he hamo h] at hne ⊢
    cases hok : e.scOk
    · rfl
    · rw [hok] at hne
      exact absurd rfl hne

/-- A response is delivered when the crossbar is ready. -/
theorem coreRspReady_of_newReceived {p : Txn × TcdmRspChan} (h : p ∈ s.newReceived x) :
    x.coreRspReady = true := by
  unfold newReceived at h
  split at h
  · split at h
    · assumption
    · cases h
  · cases h

/-- A response that the record does not stand for passes as it is. -/
theorem unmodified_of_unrecorded (hx : s.OtherUnrecorded x) : s.Unmodified x := by
  intro i e r he hamo h
  have hready := coreRspReady_of_newReceived h
  cases respond_cases s x with
  | filter t' r' rest hpres hamo' hrecv hfilt hleft =>
    rw [hrecv] at h
    cases h
  | receive t' r' rest hpres hamo' hrecv hfilt hleft =>
    have hrsp : (s.unitIn x).memRsp = some r' := by simp [unitIn, hpres]
    have hsc : t' = .core i → s.unit.isScRsp (s.unitIn x) = false := by
      rintro rfl
      have hne := hx _ hpres hready (by simp [ofOther, he, hamo])
      simp only [CacheAmo.isScRsp, hrsp]
      cases hq : s.unit.scQ
      · simp
      · by_cases hcore : s.unit.scUserQ.coreId = r'.user.coreId
        · simp [hcore, hne hq hcore]
        · simp [hcore]
    rw [hrecv, List.mem_singleton, Prod.mk.injEq] at h
    obtain ⟨ht, hr⟩ := h
    rw [hsc ht.symm, if_neg Bool.false_ne_true] at hr
    exact ⟨rest, by rw [hpres, ht, hr]⟩
  | keep hrecv hfilt hleft =>
    rw [hrecv] at h
    cases h

/-! ## Runs -/

theorem contract_of_meets (mem : Mem) (reqs : List CoreReq) (xs : List AmoIn)
    (h : (machine mem reqs).Meets (fun s x => s.OwnRecord x ∧ s.OtherUnrecorded x) xs) :
    ScRspContract mem reqs xs where
  answered := by
    have houtcomes : Outcomes ((machine mem reqs).run xs) :=
      Machine.invariant_upon (P := Outcomes) (structural_run mem reqs) outcomes_reset
        (fun s x I V hx => outcomes_next V I hx.1) xs h
    exact houtcomes.answered (structural_run mem reqs xs)
  unmodified := by
    intro pre x post heq
    exact unmodified_of_unrecorded (h pre x post heq).2

/-- **The responses to store-conditionals.**  For every list of requests, every pattern of valid and ready
signals and every order and latency of responses, each store-conditional taken has one response, which is
received or in flight, and the run can be continued until it is received.  If in every cycle the record
stands for the response it is compared with, that response is 0 when the store-conditional has written and 1
when it has not, and all other responses are delivered as the memory presents them. -/
theorem sc_responses (mem : Mem) (reqs : List CoreReq) (xs : List AmoIn) :
    (∀ i e, ((machine mem reqs).run xs).accepted[i]? = some e → e.req.amo = .AMOSC →
      (((machine mem reqs).run xs).received.map Prod.fst).count (.core i) +
        (((machine mem reqs).run xs).inFlight.map Prod.fst).count (.core i) = 1) ∧
    (∃ ys, ∀ i e, ((machine mem reqs).run xs).accepted[i]? = some e → e.req.amo = .AMOSC →
      (((machine mem reqs).run (xs ++ ys)).received.map Prod.fst).count (.core i) = 1) ∧
    ((machine mem reqs).Meets (fun s x => s.OwnRecord x ∧ s.OtherUnrecorded x) xs →
      ScRspContract mem reqs xs) := by
  refine ⟨?_, ?_, contract_of_meets mem reqs xs⟩
  · intro i e he _
    obtain ⟨hi, -⟩ := List.getElem?_eq_some_iff.mp he
    exact (structural_run mem reqs xs).count_core hi
  · obtain ⟨ys, hacc, -, hempty⟩ := exists_drained mem reqs xs
    refine ⟨ys, fun i e he _ => ?_⟩
    rw [← hacc] at he
    obtain ⟨hi, -⟩ := List.getElem?_eq_some_iff.mp he
    have hcount := (structural_run mem reqs (xs ++ ys)).count_core hi
    rwa [hempty, List.map_nil, List.count_nil, Nat.add_zero] at hcount

/-- A load-reserved and a store-conditional of core 0, answered in turn, then a load of core 0 with the same
request number. -/
theorem sc_responses_in_turn :
    ScRspContract (fun _ => 7) [readReq .AMOLR 0 0, readReq .AMOSC 0 0, readReq .AMONone 0 0]
      [go none, go (some 0), go (some 0), go (some 0)] :=
  (sc_responses (fun _ => 7) [readReq .AMOLR 0 0, readReq .AMOSC 0 0, readReq .AMONone 0 0]
    [go none, go (some 0), go (some 0), go (some 0)]).2.2 (by decide)

/-- A failed store-conditional of core 0 is answered with the word in memory, here 0, after core 1 has
presented one; one that is presented in the cycle in which the response to the first passes is answered with
the word in memory too, here 7; and a load of tile 1 is answered with the result of a store-conditional of
tile 0. -/
theorem sc_responses_fail :
    ¬ ScRspContract (fun _ => 0) [readReq .AMOSC 0 0, readReq .AMOSC 0 1]
      [go none, go none, go (some 0)] ∧
    ¬ ScRspContract (fun _ => 7) [readReq .AMOSC 0 0, readReq .AMOSC 0 1]
      [go none, go (some 0), go (some 0)] ∧
    ¬ ScRspContract (fun _ => 7) [readReq .AMONone 1 0, readReq .AMOSC 0 0]
      [go none, go none, go (some 0)] := by
  refine ⟨fun h => ?_, fun h => ?_, fun h => ?_⟩
  · obtain ⟨m, hm, hw⟩ := (h.answered.zero_iff 0 ⟨(readReq .AMOSC 0 0).chan, false⟩
      ⟨0, false, ⟨0, 0, false, 0, false⟩⟩ (by decide) rfl (by decide)).mp rfl
    have hread : ∀ p ∈ ((machine (fun _ => 0) [readReq .AMOSC 0 0, readReq .AMOSC 0 1]).run
        [go none, go none, go (some 0)]).performed, p.2.write = false := by decide
    rw [hread _ hm] at hw
    cases hw
  · have hone := h.answered.one_of_ne 1 ⟨(readReq .AMOSC 0 1).chan, false⟩
      ⟨7, false, ⟨1, 0, false, 0, false⟩⟩ (by decide) rfl (by decide) (by decide)
    revert hone
    decide
  · obtain ⟨rest, hrest⟩ := h.unmodified [go none, go none] (go (some 0)) [] rfl 0
      ⟨(readReq .AMONone 1 0).chan, false⟩ ⟨1, false, ⟨0, 1, false, 0, false⟩⟩ (by decide) (by decide)
      (by decide)
    have hpres := congrArg (Option.map Prod.fst) hrest
    simp only [Option.map_some] at hpres
    revert hpres
    decide

end AmoSys

end Amo

end CachePool
