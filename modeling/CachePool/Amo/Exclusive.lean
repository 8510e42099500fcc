import CachePool.Amo.Invariant

/-!
# Exclusivity of load-reserved and store-conditional

The unit's one reservation remembers a core number and a byte address, its one record of a
store-conditional a core and a request number.

* `ScExclusive` — a store-conditional that is performed, or reported successful by its response, was
  covered by its hart's own reservation.
* `Unaliased`, `OwnRecord` — the comparisons with the reservation and with the record decide rightly.
* `Exclusive` — the invariant; `exclusive_next` is its step under these conditions.
* `sc_exclusive` — then every run has the property.
* `sc_not_exclusive` — three short runs without it.
-/

set_option autoImplicit false

namespace CachePool

namespace Amo

namespace AmoSys

variable (s : AmoSys) (x : AmoIn)

/-- Every store-conditional that is performed or reported successful is covered by its hart's
reservation at the time it is taken. -/
structure ScExclusive : Prop where
  performed : ∀ i e m, s.accepted[i]? = some e → e.req.amo = .AMOSC →
    (.core i, m) ∈ s.performed → m.write = true →
    Reserved (hartOf e.req.user) (wordOf e.req.addr) (s.accepted.take i)
  reported : ∀ i e r, s.accepted[i]? = some e → e.req.amo = .AMOSC →
    (.core i, r) ∈ s.received → r.data = 0 →
    Reserved (hartOf e.req.user) (wordOf e.req.addr) (s.accepted.take i)

/-! ## When the comparisons decide rightly -/

/-- The comparison of core number and byte address decides a taken request's relation to the
reservation: another hart's store to the reserved word has another core number and the reserved byte
address, and a store-conditional that matches is issued in the holder's tile. -/
def Unaliased : Prop :=
  ∀ q, s.unit.accepted (s.unitIn x) = some q → s.unit.reservationQ.valid = true →
    (hartOf q.user ≠ s.holder → stores q = true →
      wordOf q.addr = wordOf s.unit.reservationQ.addr →
      q.user.coreId ≠ s.unit.reservationQ.core ∧ q.addr = s.unit.reservationQ.addr) ∧
    (q.amo = .AMOSC → q.user.coreId = s.unit.reservationQ.core →
      q.addr = s.unit.reservationQ.addr → q.user.tileId = s.holder.tile)

instance : Decidable (s.Unaliased x) := by
  unfold Unaliased
  exact Option.decidableForallMem (s.unit.accepted (s.unitIn x))

/-- The access is a store-conditional. -/
def ofSc (t : Txn) : Bool :=
  match t with
  | .core i => s.accepted[i]?.any fun e => decide (e.req.amo = .AMOSC)
  | .wb _ => false

/-- When the response to a store-conditional is presented, the record is awaiting it: the record was
set by it, not by one presented later, and has its core and request numbers. -/
def OwnRecord : Prop :=
  ∀ p, s.presented x = some p → s.ofSc p.1.1 = true →
    s.unit.scQ = true ∧ s.scOwner.map Txn.core = some p.1.1 ∧
      s.unit.scUserQ.coreId = p.1.2.user.coreId ∧ s.unit.scUserQ.reqId = p.1.2.user.reqId

instance : Decidable (s.OwnRecord x) := by
  unfold OwnRecord
  exact Option.decidableForallMem (s.presented x)

/-! ## The invariant -/

/-- The unit's reservation is that of its holder, or of the load-reserved being presented. -/
def Backed : Prop :=
  s.unit.reservationQ.valid = true →
    s.holder.core = s.unit.reservationQ.core ∧
    (Reserved s.holder (wordOf s.unit.reservationQ.addr) s.accepted ∨
      ∃ c, s.queue.head? = some c ∧ c.chan.amo = .AMOLR)

/-- The record holds the outcome of the store-conditional that set it, unless that one is still being
presented. -/
structure Recorded : Prop where
  outcome : ∀ i e, s.scOwner = some i → s.accepted[i]? = some e → s.unit.scSuccessfulQ = e.scOk
  owner_le : ∀ i, s.scOwner = some i → i ≤ s.accepted.length
  presenting : s.scOwner = some s.accepted.length →
    ∃ c, s.queue.head? = some c ∧ c.chan.amo = .AMOSC

/-- **The invariant of runs in which the comparisons decide rightly.** -/
structure Exclusive : Prop where
  backed : s.Backed
  recorded : s.Recorded
  granted : ∀ i e, s.accepted[i]? = some e → e.scOk = true →
    Reserved (hartOf e.req.user) (wordOf e.req.addr) (s.accepted.take i)
  reported : ∀ i e r, s.accepted[i]? = some e → e.req.amo = .AMOSC → (.core i, r) ∈ s.received →
    r.data = 0 → e.scOk = true

variable {s x} {mem : Mem} {reqs : List CoreReq}

theorem exclusive_reset : Exclusive (reset mem reqs) where
  backed := fun h => nomatch h
  recorded := ⟨(fun _ _ h => nomatch h), (fun _ h => nomatch h), (fun h => nomatch h)⟩
  granted := fun _ _ h => nomatch h
  reported := fun _ _ _ h => nomatch h

/-! ## The reservation -/

theorem head_of_fires {q : TcdmReqChan} (h : CacheAmo.fires (s.unitIn x) = some q) :
    ∃ c, s.queue.head? = some c ∧ c.chan = q := by
  unfold CacheAmo.fires unitIn at h
  simp only at h
  split at h
  · split at h
    · exact Option.map_eq_some_iff.mp h
    · cases h
  · cases h

theorem newAccepted_of_accepted {q : TcdmReqChan} (h : s.unit.accepted (s.unitIn x) = some q) :
    s.newAccepted x = [⟨q, s.unit.scSuccessful (s.unitIn x)⟩] := by
  simp [newAccepted, h]

theorem newAccepted_of_not_accepted (h : s.unit.accepted (s.unitIn x) = none) :
    s.newAccepted x = [] := by
  simp [newAccepted, h]

/-- A request that is not taken is presented again. -/
theorem next_queue_of_not_accepted (h : s.unit.accepted (s.unitIn x) = none) :
    (s.next x).queue = s.queue := by
  simp [next, h]

/-- The presented load-reserved backs the reservation it sets, taken or not. -/
theorem backed_of_lr {q : TcdmReqChan} (hf : CacheAmo.fires (s.unitIn x) = some q)
    (hlr : q.amo = .AMOLR) (haddr : (s.next x).unit.reservationQ.addr = q.addr)
    (hcore : (s.next x).unit.reservationQ.core = q.user.coreId) : (s.next x).Backed := by
  intro _
  have hholder : (s.next x).holder = hartOf q.user := by simp [next, hf, hlr]
  rw [hholder, haddr, hcore]
  refine ⟨rfl, ?_⟩
  cases ha : s.unit.accepted (s.unitIn x) with
  | none =>
    obtain ⟨c, hc, rfl⟩ := head_of_fires hf
    rw [next_queue_of_not_accepted ha]
    exact Or.inr ⟨c, hc, hlr⟩
  | some q' =>
    obtain rfl : q' = q := Option.some.inj ((CacheAmo.fires_of_accepted ha).symm.trans hf)
    rw [next_accepted, newAccepted_of_accepted ha]
    exact Or.inl (reserved_of_lr s.accepted ⟨q', s.unit.scSuccessful (s.unitIn x)⟩ hlr)

/-- A taken request that neither breaks nor uses the reservation keeps what it stands for. -/
theorem reserved_of_kept (hx : s.Unaliased x) (hv : s.unit.reservationQ.valid = true)
    (hcore : s.holder.core = s.unit.reservationQ.core)
    (hres : Reserved s.holder (wordOf s.unit.reservationQ.addr) s.accepted) {q : TcdmReqChan}
    (ha : s.unit.accepted (s.unitIn x) = some q) (hlr : q.amo ≠ .AMOLR)
    (hbreak : ¬ (q.user.coreId ≠ s.unit.reservationQ.core ∧ q.addr = s.unit.reservationQ.addr ∧
      (isRmw q.amo = true ∨ q.write = true)))
    (hsc : ¬ (q.amo = .AMOSC ∧ s.unit.reservationQ.core = q.user.coreId)) :
    Reserved s.holder (wordOf s.unit.reservationQ.addr) (s.next x).accepted := by
  rw [next_accepted, newAccepted_of_accepted ha]
  refine hres.concat ?_ ?_
  · intro hown
    refine ⟨hlr, fun hamo => hsc ⟨hamo, ?_⟩⟩
    rw [← hcore, ← hown]
    rfl
  · intro hother ht hw
    rcases Bool.or_eq_true_iff.mp ht with hst | hok
    · obtain ⟨hne, haddr⟩ := (hx q ha hv).1 hother hst hw
      refine hbreak ⟨hne, haddr, ?_⟩
      rcases Bool.or_eq_true_iff.mp hst with hwr | hrmw
      · exact Or.inr (Bool.and_eq_true_iff.mp hwr).1
      · exact Or.inl hrmw
    · obtain ⟨-, hamo, hc, -⟩ :=
        (CacheAmo.scSuccessful_iff (CacheAmo.fires_of_accepted ha)).mp hok
      exact hsc ⟨hamo, hc⟩

/-- A reservation that outlives a cycle stays backed: by cases on whether the request is taken. -/
theorem backed_of_kept (I : s.Backed) (hx : s.Unaliased x) {q : TcdmReqChan}
    (hf : CacheAmo.fires (s.unitIn x) = some q) (hlr : q.amo ≠ .AMOLR)
    (hkeep : (s.next x).unit.reservationQ = s.unit.reservationQ)
    (hbreak : ¬ (q.user.coreId ≠ s.unit.reservationQ.core ∧ q.addr = s.unit.reservationQ.addr ∧
      (isRmw q.amo = true ∨ q.write = true)))
    (hsc : ¬ (q.amo = .AMOSC ∧ s.unit.reservationQ.core = q.user.coreId)) : (s.next x).Backed := by
  intro hv
  rw [hkeep] at hv ⊢
  have hholder : (s.next x).holder = s.holder := by simp [next, hf, hlr]
  obtain ⟨hcore, hor⟩ := I hv
  obtain ⟨c, hc, rfl⟩ := head_of_fires hf
  have hres : Reserved s.holder (wordOf s.unit.reservationQ.addr) s.accepted := by
    rcases hor with hres | ⟨c', hc', hlr'⟩
    · exact hres
    · rw [hc] at hc'
      cases hc'
      exact absurd hlr' hlr
  rw [hholder]
  refine ⟨hcore, Or.inl ?_⟩
  cases ha : s.unit.accepted (s.unitIn x) with
  | none =>
    rw [next_accepted, newAccepted_of_not_accepted ha, List.append_nil]
    exact hres
  | some q' =>
    obtain rfl : q' = c.chan := Option.some.inj ((CacheAmo.fires_of_accepted ha).symm.trans hf)
    exact reserved_of_kept hx hv hcore hres ha hlr hbreak hsc

theorem backed_next (I : s.Backed) (hx : s.Unaliased x) : (s.next x).Backed := by
  cases hf : CacheAmo.fires (s.unitIn x) with
  | none =>
    have hkeep : (s.next x).unit.reservationQ = s.unit.reservationQ :=
      CacheAmo.reservationD_of_not_fires hf
    have ha : s.unit.accepted (s.unitIn x) = none := by
      cases ha : s.unit.accepted (s.unitIn x) with
      | none => rfl
      | some q =>
        have hq := CacheAmo.fires_of_accepted ha
        rw [hf] at hq
        cases hq
    have hholder : (s.next x).holder = s.holder := by simp [next, hf]
    unfold Backed
    rw [hkeep, hholder, next_queue_of_not_accepted ha, next_accepted,
      newAccepted_of_not_accepted ha, List.append_nil]
    exact I
  | some q =>
    intro hv
    rcases CacheAmo.reservationD_cases hf hv with ⟨hlr, haddr, hcore⟩ | ⟨hlr, hkeep, hbreak, hsc⟩
    · exact backed_of_lr hf hlr haddr hcore hv
    · exact backed_of_kept I hx hf hlr hkeep hbreak hsc hv

/-- A success under the condition belongs to the hart that holds the reservation. -/
theorem Backed.reserved_of_ok (I : s.Backed) (hx : s.Unaliased x) {q : TcdmReqChan}
    (ha : s.unit.accepted (s.unitIn x) = some q)
    (hok : s.unit.scSuccessful (s.unitIn x) = true) :
    Reserved (hartOf q.user) (wordOf q.addr) s.accepted := by
  have hf := CacheAmo.fires_of_accepted ha
  obtain ⟨hv, hamo, hc, haddr⟩ := (CacheAmo.scSuccessful_iff hf).mp hok
  obtain ⟨hcore, hor⟩ := I hv
  have htile := (hx q ha hv).2 hamo hc.symm haddr.symm
  have hhart : hartOf q.user = s.holder := by
    unfold hartOf
    rw [htile, ← hc, ← hcore]
  rw [hhart, ← haddr]
  rcases hor with hres | ⟨c, hc', hlr⟩
  · exact hres
  · obtain ⟨c', hhead, rfl⟩ := head_of_fires hf
    rw [hhead] at hc'
    cases hc'
    rw [hamo] at hlr
    cases hlr

/-- A request taken so far was taken before the cycle or is the one taken in it. -/
theorem getElem?_next_accepted_cases {i : Nat} {e : Taken}
    (h : (s.next x).accepted[i]? = some e) :
    (i < s.accepted.length ∧ s.accepted[i]? = some e) ∨
    (i = s.accepted.length ∧ s.unit.accepted (s.unitIn x) = some e.req ∧
      e.scOk = s.unit.scSuccessful (s.unitIn x)) := by
  rw [next_accepted] at h
  rcases Nat.lt_or_ge i s.accepted.length with hlt | hge
  · rw [List.getElem?_append_left hlt] at h
    exact Or.inl ⟨hlt, h⟩
  · right
    rw [List.getElem?_append_right hge] at h
    cases ha : s.unit.accepted (s.unitIn x) with
    | none =>
      rw [newAccepted_of_not_accepted ha] at h
      cases h
    | some q =>
      rw [newAccepted_of_accepted ha, List.getElem?_singleton] at h
      split at h
      · cases h
        exact ⟨by omega, rfl, rfl⟩
      · cases h

theorem Exclusive.next_granted (I : Exclusive s) (hx : s.Unaliased x) (i : Nat) (e : Taken)
    (he : (s.next x).accepted[i]? = some e) (hok : e.scOk = true) :
    Reserved (hartOf e.req.user) (wordOf e.req.addr) ((s.next x).accepted.take i) := by
  rw [next_accepted]
  rcases getElem?_next_accepted_cases he with ⟨hlt, hbefore⟩ | ⟨rfl, ha, hsc⟩
  · rw [List.take_append_of_le_length (Nat.le_of_lt hlt)]
    exact I.granted i e hbefore hok
  · rw [List.take_left]
    exact I.backed.reserved_of_ok hx ha (hsc ▸ hok)

/-! ## The record and the report -/

theorem next_scOwner : (s.next x).scOwner =
    if CacheAmo.scSet (s.unitIn x) then some s.accepted.length else s.scOwner := rfl

theorem next_scSuccessfulQ : (s.next x).unit.scSuccessfulQ = if CacheAmo.scSet (s.unitIn x) then
    s.unit.scSuccessful (s.unitIn x) else s.unit.scSuccessfulQ := rfl

/-- The record is set by the store-conditional at the head of the queue. -/
theorem head_of_scSet (h : CacheAmo.scSet (s.unitIn x) = true) :
    ∃ c, s.queue.head? = some c ∧ c.chan.amo = .AMOSC := by
  unfold CacheAmo.scSet at h
  cases hf : CacheAmo.fires (s.unitIn x) with
  | none =>
    rw [hf] at h
    cases h
  | some q =>
    rw [hf] at h
    obtain ⟨c, hc, rfl⟩ := head_of_fires hf
    exact ⟨c, hc, of_decide_eq_true h⟩

/-- A store-conditional that has set the record sets it again when it is taken. -/
theorem Recorded.scSet_of_accepted (I : s.Recorded) (h : s.scOwner = some s.accepted.length)
    {q : TcdmReqChan} (ha : s.unit.accepted (s.unitIn x) = some q) :
    CacheAmo.scSet (s.unitIn x) = true := by
  obtain ⟨c, hc, hamo⟩ := I.presenting h
  obtain ⟨c', hc', rfl⟩ := head_of_fires (CacheAmo.fires_of_accepted ha)
  rw [hc] at hc'
  cases hc'
  simp [CacheAmo.scSet, CacheAmo.fires_of_accepted ha, hamo]

theorem Recorded.next_outcome (I : s.Recorded) (i : Nat) (e : Taken)
    (hi : (s.next x).scOwner = some i) (he : (s.next x).accepted[i]? = some e) :
    (s.next x).unit.scSuccessfulQ = e.scOk := by
  rw [next_scOwner] at hi
  rw [next_scSuccessfulQ]
  split at hi
  · cases hi
    rename_i hset
    rw [if_pos hset]
    rcases getElem?_next_accepted_cases he with ⟨hlt, -⟩ | ⟨-, -, hsc⟩
    · omega
    · exact hsc.symm
  · rename_i hset
    rw [if_neg hset]
    rcases getElem?_next_accepted_cases he with ⟨-, hbefore⟩ | ⟨rfl, ha, -⟩
    · exact I.outcome i e hi hbefore
    · exact absurd (I.scSet_of_accepted hi ha) hset

theorem Recorded.next_owner_le (I : s.Recorded) (i : Nat) (hi : (s.next x).scOwner = some i) :
    i ≤ (s.next x).accepted.length := by
  rw [next_scOwner] at hi
  rw [next_accepted, List.length_append]
  split at hi
  · cases hi
    omega
  · have := I.owner_le i hi
    omega

theorem Recorded.next_presenting (I : s.Recorded)
    (hi : (s.next x).scOwner = some (s.next x).accepted.length) :
    ∃ c, (s.next x).queue.head? = some c ∧ c.chan.amo = .AMOSC := by
  rw [next_scOwner, next_accepted, List.length_append] at hi
  cases ha : s.unit.accepted (s.unitIn x) with
  | none =>
    rw [newAccepted_of_not_accepted ha] at hi
    rw [next_queue_of_not_accepted ha]
    split at hi
    · rename_i hset
      exact head_of_scSet hset
    · exact I.presenting hi
  | some q =>
    rw [newAccepted_of_accepted ha, List.length_singleton] at hi
    split at hi
    · have := Option.some.inj hi
      omega
    · have := I.owner_le _ hi
      omega

/-- The response to a store-conditional for which the record stands carries its outcome. -/
theorem Recorded.data_of_newReceived (I : s.Recorded) (J : Structural s reqs) (hx : s.OwnRecord x)
    {i : Nat} {e : Taken} {r : TcdmRspChan} (he : (s.next x).accepted[i]? = some e)
    (hamo : e.req.amo = .AMOSC) (h : (.core i, r) ∈ s.newReceived x) :
    r.data = if e.scOk then 0 else 1 := by
  cases respond_cases s x with
  | filter t' r' rest hpres hamo' hrecv hfilt hleft =>
    rw [hrecv] at h
    cases h
  | receive t' r' rest hpres hamo' hrecv hfilt hleft =>
    rw [hrecv] at h
    cases List.mem_singleton.mp h
    obtain ⟨he', -⟩ := J.accepted_of_inFlight (mem_of_presented hpres) he
    obtain ⟨hq, howner, hcore, hid⟩ := hx _ hpres (by simp [ofSc, he', hamo])
    have hrsp : (s.unitIn x).memRsp = some r' := by simp [unitIn, hpres]
    have hsc : s.unit.isScRsp (s.unitIn x) = true := by
      simp only [CacheAmo.isScRsp, hrsp]
      simp [hq, hcore, hid]
    obtain ⟨j, hj, hji⟩ := Option.map_eq_some_iff.mp howner
    cases hji
    rw [hsc, if_pos rfl, CacheAmo.scRsp, if_pos hq, I.outcome i e hj he']
  | keep hrecv hfilt hleft =>
    rw [hrecv] at h
    cases h

theorem Exclusive.next_reported (I : Exclusive s) (J : Structural s reqs) (hx : s.OwnRecord x)
    (i : Nat) (e : Taken) (r : TcdmRspChan) (he : (s.next x).accepted[i]? = some e)
    (hamo : e.req.amo = .AMOSC) (h : (.core i, r) ∈ (s.next x).received) (hr : r.data = 0) :
    e.scOk = true := by
  rcases List.mem_append.mp h with hbefore | hnow
  · have he' := J.accepted_of_received hbefore he
    exact I.reported i e r he' hamo hbefore hr
  · have hdata := I.recorded.data_of_newReceived J hx he hamo hnow
    cases hok : e.scOk
    · rw [hok, hr] at hdata
      exact absurd hdata (show (0 : BitVec 32) ≠ 1 by decide)
    · rfl

theorem recorded_next (I : s.Recorded) : (s.next x).Recorded :=
  ⟨I.next_outcome, I.next_owner_le, I.next_presenting⟩

/-! ## Runs -/

theorem exclusive_next (I : Exclusive s) (J : Structural s reqs) (hx : s.Unaliased x)
    (hx' : s.OwnRecord x) : Exclusive (s.next x) where
  backed := backed_next I.backed hx
  recorded := recorded_next I.recorded
  granted := I.next_granted hx
  reported := I.next_reported J hx'

theorem Exclusive.scExclusive (I : Exclusive s) (J : Structural s reqs) : ScExclusive s where
  performed := by
    intro i e m he hamo hm hw
    obtain ⟨e', he', rfl⟩ := J.forwarded i m hm
    rw [he] at he'
    cases he'
    rw [(J.accepted_wf e (List.mem_of_getElem? he)).forward_write_of_sc hamo] at hw
    exact I.granted i e he hw
  reported := fun i e r he hamo hr h0 => I.granted i e he (I.reported i e r he hamo hr h0)

/-- **Exclusivity of LR/SC.**  For every list of requests, every pattern of valid and ready signals and
every order and latency of responses: in a run whose cycles meet `Unaliased` and `OwnRecord`, every
store-conditional that is reported successful or performed is to the word of its hart's most recent
load-reserved, with no other store-conditional of the hart and no write, atomic or successful
store-conditional of another hart to any byte of the word in between. -/
theorem sc_exclusive (mem : Mem) (reqs : List CoreReq) (xs : List AmoIn)
    (h : (machine mem reqs).Meets (fun s x => s.Unaliased x ∧ s.OwnRecord x) xs) :
    ScExclusive ((machine mem reqs).run xs) := by
  have hexclusive : Exclusive ((machine mem reqs).run xs) :=
    Machine.invariant_upon (P := Exclusive) (structural_run mem reqs) exclusive_reset
      (fun s x I E hx => exclusive_next E I hx.1 hx.2) xs h
  exact hexclusive.scExclusive (structural_run mem reqs xs)

/-- A load, load-reserved or store-conditional of a hart, with request number 0. -/
def readReq (amo : AmoOp) (tile core : Nat) : CoreReq where
  chan := ⟨0x80000000, false, amo, 1, 0b1111, ⟨core, tile, false, 0, false⟩⟩
  not_isAmo := rfl
  not_write := fun _ => rfl
  strb_all := fun _ => rfl

/-- A store to the byte above. -/
def byteStoreReq (core : Nat) : CoreReq where
  chan := ⟨0x80000001, true, .AMONone, 0, 0b0010, ⟨core, 0, false, 0, false⟩⟩
  not_isAmo := rfl
  not_write := fun h => absurd rfl h
  strb_all := fun h => absurd rfl h

/-- A request is presented, and the memory answers the oldest one. -/
def go (rsp : Option Nat) : AmoIn := ⟨true, true, rsp, true, 0⟩

/-- A load-reserved of core 0, a load of core 1, and the store-conditional of core 0, reported
successful. -/
theorem sc_exclusive_one_hart :
    ScExclusive ((machine (fun _ => 0)
      [readReq .AMOLR 0 0, readReq .AMONone 0 1, readReq .AMOSC 0 0]).run
      [go none, go (some 0), go (some 0), go (some 0)]) :=
  sc_exclusive _ [readReq .AMOLR 0 0, readReq .AMONone 0 1, readReq .AMOSC 0 0]
    [go none, go (some 0), go (some 0), go (some 0)] (by decide)

/-- Core 0 of tile 1 uses the reservation of core 0 of tile 0; a byte store of core 1 to the reserved
word leaves the reservation of core 0 in place; and a failed store-conditional of core 0, whose response
arrives after core 1 has issued one, is answered with the word in memory, here 0. -/
theorem sc_not_exclusive :
    ¬ ScExclusive ((machine (fun _ => 0) [readReq .AMOLR 0 0, readReq .AMOSC 1 0]).run
      [go none, go none]) ∧
    ¬ ScExclusive ((machine (fun _ => 0)
      [readReq .AMOLR 0 0, byteStoreReq 1, readReq .AMOSC 0 0]).run [go none, go none, go none]) ∧
    ¬ ScExclusive ((machine (fun _ => 0) [readReq .AMOSC 0 0, readReq .AMOSC 0 1]).run
      [go none, go none, go (some 0)]) := by
  refine ⟨fun h => ?_, fun h => ?_, fun h => ?_⟩
  · have hres := h.performed 1 ⟨(readReq .AMOSC 1 0).chan, true⟩
      (Taken.forward ⟨(readReq .AMOSC 1 0).chan, true⟩) (by decide) rfl (by decide) rfl
    exact not_reserved_of_no_lr (by decide) hres
  · have hres := h.performed 2 ⟨(readReq .AMOSC 0 0).chan, true⟩
      (Taken.forward ⟨(readReq .AMOSC 0 0).chan, true⟩) (by decide) rfl (by decide) rfl
    exact not_reserved_of_touched [⟨(readReq .AMOLR 0 0).chan, false⟩]
      (e := ⟨(byteStoreReq 1).chan, false⟩) (by decide) (by decide) (by decide) hres
  · have hres := h.reported 0 ⟨(readReq .AMOSC 0 0).chan, false⟩
      ⟨0, false, ⟨0, 0, false, 0, false⟩⟩ (by decide) rfl (by decide) rfl
    exact not_reserved_of_no_lr (by decide) hres

end AmoSys

end Amo

end CachePool
