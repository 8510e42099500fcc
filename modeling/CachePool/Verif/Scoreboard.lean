import CachePool.Lib.Machine
import CachePool.Lib.Tally

/-!
# The request scoreboard of a vector unit's port (`gen_spatz_req_scoreboard` in `cachepool_cc`)

A table with a slot for each request id, filled when a request is accepted and cleared when a response is
taken, and three counters.  The two assertions look at the slots only; what they are to catch is a vector unit
that uses an id again too early, and a response nobody waits for.

* `push`, `pop`, `next` — a clock cycle of one port; `NoDupPush`, `PopWasValid` — `sba_no_dup_push` and
  `sba_pop_was_valid`.
* `requestsOf`, `responsesOf`, `InFlight`, `ObeysAt` — the same in terms of the requests and responses so far.
* `Slots` — slots, counters and history agree as long as the protocol is obeyed; `asserts_iff` — then an
  assertion fails exactly where the protocol is broken.
* `scoreboard_exact` — over whole runs, with what the watchdog finds in the table.
-/

set_option autoImplicit false

namespace CachePool

namespace Scoreboard

/-- `spatz_sb_entry_t`. -/
structure Entry where
  valid : Bool
  write : Bool
  globalId : BitVec 32
  addr : BitVec 32
  issueTime : BitVec 64
  deriving DecidableEq, Repr

/-- One cycle at a port with `depth` request ids and addresses of `aw` bits: the request and the response
channel, and `$time`. -/
structure Cycle (depth aw : Nat) where
  reqValid : Bool
  reqReady : Bool
  reqId : Fin depth
  reqWrite : Bool
  reqAddr : BitVec aw
  rspValid : Bool
  rspReady : Bool
  rspId : Fin depth
  time : BitVec 64

variable {depth aw : Nat}

/-- The entry with its valid bit cleared. -/
def Entry.clear (e : Entry) : Entry := { e with valid := false }

@[simp] theorem Entry.clear_valid (e : Entry) : e.clear.valid = false := rfl

namespace Cycle

variable (x : Cycle depth aw)

def reqFire : Bool := x.reqValid && x.reqReady

def rspFire : Bool := x.rspValid && x.rspReady

/-- A request with this id is accepted. -/
def requests (id : Fin depth) : Bool := x.reqFire && decide (x.reqId = id)

/-- A response with this id is taken. -/
def responds (id : Fin depth) : Bool := x.rspFire && decide (x.rspId = id)

end Cycle

/-- `req_id_q`, `rsp_id_q`, `outstanding_q` and `sb_q` of a port. -/
structure Port (depth : Nat) where
  reqIdQ : BitVec 32
  rspIdQ : BitVec 32
  outstandingQ : BitVec 32
  sbQ : Fin depth → Entry

namespace Port

def reset : Port depth := ⟨0, 0, 0, fun _ => ⟨false, false, 0, 0, 0⟩⟩

variable (s : Port depth) (x : Cycle depth aw)

/-- The slot of an accepted request. -/
def entry : Entry := ⟨true, x.reqWrite, s.reqIdQ, x.reqAddr.setWidth 32, x.time⟩

/-- The table after the push. -/
def push : Fin depth → Entry :=
  if x.reqFire then Function.update s.sbQ x.reqId (s.entry x) else s.sbQ

/-- The table after push and pop: with the same id the pop wins. -/
def pop : Fin depth → Entry :=
  if x.rspFire then Function.update (s.push x) x.rspId (s.push x x.rspId).clear else s.push x

def reqIdD : BitVec 32 := if x.reqFire then s.reqIdQ + 1 else s.reqIdQ

def rspIdD : BitVec 32 := if x.rspFire then s.rspIdQ + 1 else s.rspIdQ

def next : Port depth := ⟨s.reqIdD x, s.rspIdD x, s.reqIdD x - s.rspIdD x, s.pop x⟩

/-- `sba_no_dup_push`. -/
def NoDupPush : Prop := x.reqFire = true → (s.sbQ x.reqId).valid = false

/-- `sba_pop_was_valid`. -/
def PopWasValid : Prop := x.rspFire = true → (s.sbQ x.rspId).valid = true

/-- Neither assertion fails. -/
def Asserts : Prop := s.NoDupPush x ∧ s.PopWasValid x

instance : Decidable (s.Asserts x) := by
  unfold Asserts NoDupPush PopWasValid
  infer_instance

end Port

def machine (depth aw : Nat) : Machine (Port depth) (Cycle depth aw) := ⟨Port.reset, Port.next⟩

/-! ## Requests and responses so far -/

def requested (xs : List (Cycle depth aw)) : Nat := (xs.filter Cycle.reqFire).length

def responded (xs : List (Cycle depth aw)) : Nat := (xs.filter Cycle.rspFire).length

def requestsOf (xs : List (Cycle depth aw)) (id : Fin depth) : Nat :=
  (xs.filter fun x => x.requests id).length

def responsesOf (xs : List (Cycle depth aw)) (id : Fin depth) : Nat :=
  (xs.filter fun x => x.responds id).length

/-- One response less than requests. -/
def InFlight (xs : List (Cycle depth aw)) (id : Fin depth) : Prop := requestsOf xs id = responsesOf xs id + 1

/-- **The protocol**: an id is used when all its requests are answered, and a response is for one in flight.
-/
def ObeysAt (xs : List (Cycle depth aw)) (x : Cycle depth aw) : Prop :=
  (x.reqFire = true → requestsOf xs x.reqId = responsesOf xs x.reqId) ∧
    (x.rspFire = true → InFlight xs x.rspId)

/-- Every cycle obeys, given those before it. -/
def Obeys (xs : List (Cycle depth aw)) : Prop :=
  ∀ pre x post, xs = pre ++ x :: post → ObeysAt pre x

/-- The history of a run. -/
def history (ι : Type) : Machine (List ι) ι := ⟨[], fun h x => h ++ [x]⟩

theorem history_run {ι : Type} (xs : List ι) : (history ι).run xs = xs := by
  induction xs using List.reverseRecOn with
  | nil => rfl
  | append_singleton xs x ih =>
    rw [Machine.run_concat, ih]
    rfl

theorem obeys_concat {xs : List (Cycle depth aw)} {x : Cycle depth aw} :
    Obeys (xs ++ [x]) ↔ Obeys xs ∧ ObeysAt xs x := by
  have hmeets : (history (Cycle depth aw)).Meets ObeysAt (xs ++ [x]) ↔
      (history (Cycle depth aw)).Meets ObeysAt xs ∧ ObeysAt ((history (Cycle depth aw)).run xs) x :=
    Machine.meets_concat
  simpa only [Machine.Meets, history_run, Obeys] using hmeets

section

variable (xs : List (Cycle depth aw)) (x : Cycle depth aw) (id : Fin depth)

theorem requested_concat : requested (xs ++ [x]) = requested xs + if x.reqFire then 1 else 0 := by
  cases h : x.reqFire <;> simp [requested, h]

theorem responded_concat : responded (xs ++ [x]) = responded xs + if x.rspFire then 1 else 0 := by
  cases h : x.rspFire <;> simp [responded, h]

theorem requestsOf_concat :
    requestsOf (xs ++ [x]) id = requestsOf xs id + if x.requests id then 1 else 0 := by
  cases h : x.requests id <;> simp [requestsOf, h]

theorem responsesOf_concat :
    responsesOf (xs ++ [x]) id = responsesOf xs id + if x.responds id then 1 else 0 := by
  cases h : x.responds id <;> simp [responsesOf, h]

end

/-! ## The table -/

/-- What a slot counts for. -/
def Entry.busy (e : Entry) : Nat := if e.valid then 1 else 0

/-- The slot has the data of the last request of its id, which has not been answered. -/
def Holds (e : Entry) (xs : List (Cycle depth aw)) (id : Fin depth) : Prop :=
  ∃ pre x post, xs = pre ++ x :: post ∧ x.requests id = true ∧
    (∀ y ∈ post, y.requests id = false ∧ y.responds id = false) ∧
    e = ⟨true, x.reqWrite, BitVec.ofNat 32 (requested pre), x.reqAddr.setWidth 32, x.time⟩

/-- **Table, counters and history agree.** -/
structure Slots (s : Port depth) (xs : List (Cycle depth aw)) : Prop where
  count : ∀ id, requestsOf xs id = responsesOf xs id + (s.sbQ id).busy
  total : requested xs = responded xs + tally Entry.busy s.sbQ
  content : ∀ id, (s.sbQ id).valid = true → Holds (s.sbQ id) xs id

variable {s : Port depth} {xs : List (Cycle depth aw)} {x : Cycle depth aw}

/-- The counters count in every run. -/
theorem counters_run (xs : List (Cycle depth aw)) :
    ((machine depth aw).run xs).reqIdQ = BitVec.ofNat 32 (requested xs) ∧
      ((machine depth aw).run xs).rspIdQ = BitVec.ofNat 32 (responded xs) ∧
      ((machine depth aw).run xs).outstandingQ =
        BitVec.ofNat 32 (requested xs) - BitVec.ofNat 32 (responded xs) := by
  induction xs using List.reverseRecOn with
  | nil => exact ⟨rfl, rfl, (BitVec.sub_self _).symm⟩
  | append_singleton xs x ih =>
    obtain ⟨hreq, hrsp, _⟩ := ih
    have hreqD : ((machine depth aw).run xs).reqIdD x = BitVec.ofNat 32 (requested (xs ++ [x])) := by
      rw [requested_concat, Port.reqIdD, hreq]
      cases x.reqFire
      · rfl
      · exact (BitVec.ofNat_add _ _).symm
    have hrspD : ((machine depth aw).run xs).rspIdD x = BitVec.ofNat 32 (responded (xs ++ [x])) := by
      rw [responded_concat, Port.rspIdD, hrsp]
      cases x.rspFire
      · rfl
      · exact (BitVec.ofNat_add _ _).symm
    rw [Machine.run_concat]
    refine ⟨hreqD, hrspD, ?_⟩
    rw [← hreqD, ← hrspD]
    rfl

/-- The assertions are the protocol. -/
theorem Slots.asserts_iff (hS : Slots s xs) (x : Cycle depth aw) : s.Asserts x ↔ ObeysAt xs x := by
  have hslot : ∀ id, ((s.sbQ id).valid = true ↔ InFlight xs id) ∧
      ((s.sbQ id).valid = false ↔ requestsOf xs id = responsesOf xs id) := by
    intro id
    have hcount := hS.count id
    unfold InFlight
    cases hv : (s.sbQ id).valid <;> simp only [Entry.busy, hv] at hcount <;> simp <;> simp at hcount <;> omega
  unfold Port.Asserts Port.NoDupPush Port.PopWasValid ObeysAt
  rw [(hslot x.reqId).2, (hslot x.rspId).1]

theorem pop_apply (s : Port depth) (x : Cycle depth aw) (id : Fin depth) :
    s.pop x id =
      if x.responds id then (s.push x id).clear else s.push x id := by
  unfold Port.pop Cycle.responds
  cases x.rspFire with
  | false => simp
  | true =>
    by_cases hid : x.rspId = id
    · subst hid
      simp
    · simp [hid, Function.update_of_ne (Ne.symm hid)]

theorem push_apply (s : Port depth) (x : Cycle depth aw) (id : Fin depth) :
    s.push x id = if x.requests id then s.entry x else s.sbQ id := by
  unfold Port.push Cycle.requests
  cases x.reqFire with
  | false => simp
  | true =>
    by_cases hid : x.reqId = id
    · subst hid
      simp
    · simp [hid, Function.update_of_ne (Ne.symm hid)]

theorem Slots.free_of_requests (hA : s.Asserts x) {id : Fin depth} (h : x.requests id = true) :
    (s.sbQ id).valid = false := by
  obtain ⟨hfire, hid⟩ := Bool.and_eq_true_iff.mp h
  rw [← of_decide_eq_true hid]
  exact hA.1 hfire

theorem Slots.valid_of_responds (hA : s.Asserts x) {id : Fin depth} (h : x.responds id = true) :
    (s.sbQ id).valid = true := by
  obtain ⟨hfire, hid⟩ := Bool.and_eq_true_iff.mp h
  rw [← of_decide_eq_true hid]
  exact hA.2 hfire

/-- One id is not used and answered in one cycle. -/
theorem Slots.not_both (hA : s.Asserts x) {id : Fin depth} (hreq : x.requests id = true) :
    x.responds id = false := by
  rw [← Bool.not_eq_true]
  intro hrsp
  have hfree := Slots.free_of_requests hA hreq
  rw [Slots.valid_of_responds hA hrsp] at hfree
  cases hfree

theorem Slots.next_count (hS : Slots s xs) (hA : s.Asserts x) (id : Fin depth) :
    requestsOf (xs ++ [x]) id = responsesOf (xs ++ [x]) id + ((s.next x).sbQ id).busy := by
  have hcount := hS.count id
  rw [requestsOf_concat, responsesOf_concat]
  change _ = _ + (s.pop x id).busy
  rw [pop_apply, push_apply]
  cases hreq : x.requests id with
  | true =>
    have hfree := Slots.free_of_requests hA hreq
    simp only [Slots.not_both hA hreq, Entry.busy, hfree, Port.entry] at hcount ⊢
    simp at hcount ⊢
    omega
  | false =>
    cases hrsp : x.responds id with
    | true =>
      have hvalid := Slots.valid_of_responds hA hrsp
      simp only [Entry.busy, hvalid] at hcount ⊢
      simp at hcount ⊢
      omega
    | false => simpa using hcount

theorem Slots.next_total (hS : Slots s xs) (hA : s.Asserts x) :
    requested (xs ++ [x]) = responded (xs ++ [x]) + tally Entry.busy (s.next x).sbQ := by
  have htotal := hS.total
  have hpush : tally Entry.busy (s.push x) = tally Entry.busy s.sbQ + if x.reqFire then 1 else 0 := by
    unfold Port.push
    cases hfire : x.reqFire with
    | false => simp
    | true =>
      have hstep := tally_update Entry.busy s.sbQ x.reqId (s.entry x)
      have hold : (s.sbQ x.reqId).busy = 0 := by simp [Entry.busy, hA.1 hfire]
      have hnew : (s.entry x).busy = 1 := rfl
      simp only [if_true]
      omega
  have hpop : tally Entry.busy (s.pop x) + (if x.rspFire then 1 else 0) = tally Entry.busy (s.push x) := by
    unfold Port.pop
    cases hfire : x.rspFire with
    | false => simp
    | true =>
      have hstep := tally_update Entry.busy (s.push x) x.rspId (s.push x x.rspId).clear
      have hold : (s.push x x.rspId).busy = 1 := by
        rw [push_apply]
        split
        · rfl
        · simp [Entry.busy, hA.2 hfire]
      have hnew : (s.push x x.rspId).clear.busy = 0 := rfl
      simp only [if_true]
      omega
  rw [requested_concat, responded_concat]
  change _ = _ + tally Entry.busy (s.pop x)
  omega

theorem Slots.next_content (hS : Slots s xs)
    (hreqId : s.reqIdQ = BitVec.ofNat 32 (requested xs)) (id : Fin depth)
    (hvalid : ((s.next x).sbQ id).valid = true) : Holds ((s.next x).sbQ id) (xs ++ [x]) id := by
  change (s.pop x id).valid = true at hvalid
  change Holds (s.pop x id) _ id
  rw [pop_apply] at hvalid ⊢
  cases hrsp : x.responds id with
  | true =>
    rw [hrsp] at hvalid
    cases hvalid
  | false =>
    rw [hrsp, if_neg Bool.false_ne_true] at hvalid
    rw [if_neg Bool.false_ne_true]
    rw [push_apply] at hvalid ⊢
    cases hreq : x.requests id with
    | true => exact ⟨xs, x, [], rfl, hreq, by simp, by rw [if_pos rfl, Port.entry, hreqId]⟩
    | false =>
      rw [hreq, if_neg Bool.false_ne_true] at hvalid
      rw [if_neg Bool.false_ne_true]
      obtain ⟨pre, y, post, rfl, hy, hpost, heq⟩ := hS.content id hvalid
      refine ⟨pre, y, post ++ [x], by simp, hy, fun z hz => ?_, heq⟩
      rcases List.mem_append.mp hz with hz | hz
      · exact hpost z hz
      · rw [List.mem_singleton.mp hz]
        exact ⟨hreq, hrsp⟩

theorem slots_reset : Slots (Port.reset : Port depth) ([] : List (Cycle depth aw)) where
  count _ := rfl
  total := by
    have hzero : tally Entry.busy (Port.reset : Port depth).sbQ = 0 := tally_eq_zero_iff.mpr fun _ => rfl
    rw [hzero]
    rfl
  content _ h := by cases h

/-! ## Whole runs -/

/-- Up to the first cycle that breaks the protocol no assertion fails, and in that cycle one does. -/
theorem asserts_iff_obeys (xs : List (Cycle depth aw)) :
    ((machine depth aw).Meets Port.Asserts xs ↔ Obeys xs) ∧
      (Obeys xs → Slots ((machine depth aw).run xs) xs) := by
  induction xs using List.reverseRecOn with
  | nil =>
    refine ⟨⟨fun _ pre x post h => ?_, fun _ => Machine.Meets.nil _⟩, fun _ => slots_reset⟩
    simp at h
  | append_singleton xs x ih =>
    obtain ⟨hiff, hslots⟩ := ih
    rw [Machine.meets_concat, obeys_concat, hiff]
    refine ⟨and_congr_right fun hobeys => (hslots hobeys).asserts_iff x, ?_⟩
    rintro ⟨hobeys, hx⟩
    have hS := hslots hobeys
    have hA := (hS.asserts_iff x).mpr hx
    rw [Machine.run_concat]
    exact ⟨hS.next_count hA, hS.next_total hA, hS.next_content (counters_run xs).1⟩

/-- **The scoreboard is exact.**  In every run the assertions hold in all cycles exactly if the protocol is
obeyed in all cycles.  Where it is, a slot is valid exactly for an id in flight, with the data of its request
and the number of requests before it; and `outstanding_q` is the number of these slots, so that with fewer
than `2 ^ 32` ids the watchdog has an entry to show whenever it finds a port waiting. -/
theorem scoreboard_exact (xs : List (Cycle depth aw)) :
    ((machine depth aw).Meets Port.Asserts xs ↔ Obeys xs) ∧
    (Obeys xs →
      (∀ id, (((machine depth aw).run xs).sbQ id).valid = true ↔ InFlight xs id) ∧
      (∀ id, InFlight xs id → Holds (((machine depth aw).run xs).sbQ id) xs id) ∧
      ((machine depth aw).run xs).outstandingQ =
        BitVec.ofNat 32 (tally Entry.busy ((machine depth aw).run xs).sbQ) ∧
      (depth < 2 ^ 32 → (((machine depth aw).run xs).outstandingQ ≠ 0 ↔ ∃ id, InFlight xs id))) := by
  obtain ⟨hiff, hslots⟩ := asserts_iff_obeys xs
  refine ⟨hiff, fun hobeys => ?_⟩
  have hS := hslots hobeys
  have hvalid : ∀ id, (((machine depth aw).run xs).sbQ id).valid = true ↔ InFlight xs id := by
    intro id
    have hcount := hS.count id
    unfold InFlight
    cases hv : (((machine depth aw).run xs).sbQ id).valid <;> simp [Entry.busy, hv] at hcount ⊢ <;> omega
  have hout : ((machine depth aw).run xs).outstandingQ =
      BitVec.ofNat 32 (tally Entry.busy ((machine depth aw).run xs).sbQ) := by
    rw [(counters_run xs).2.2, hS.total, BitVec.ofNat_add, BitVec.add_comm, BitVec.add_sub_cancel]
  refine ⟨hvalid, fun id hid => hS.content id ((hvalid id).mpr hid), hout, fun hdepth => ?_⟩
  have hle : tally Entry.busy ((machine depth aw).run xs).sbQ ≤ depth := by
    have hone : ∀ e : Entry, e.busy ≤ 1 := by
      intro e
      unfold Entry.busy
      split <;> omega
    simpa using tally_le hone ((machine depth aw).run xs).sbQ
  have hzero : ((machine depth aw).run xs).outstandingQ = 0 ↔
      tally Entry.busy ((machine depth aw).run xs).sbQ = 0 := by
    rw [hout]
    constructor
    · intro h
      have hnat := congrArg BitVec.toNat h
      rw [BitVec.toNat_ofNat, Nat.mod_eq_of_lt (by omega)] at hnat
      exact hnat
    · intro h
      rw [h]
      rfl
  rw [ne_eq, hzero, tally_eq_zero_iff, not_forall]
  apply exists_congr
  intro id
  rw [← hvalid id]
  unfold Entry.busy
  cases (((machine depth aw).run xs).sbQ id).valid <;> simp

end Scoreboard

end CachePool
