import CachePool.Lib.Observe
import CachePool.Verif.SharedMemory

/-!
# When the checker raises a false alarm

The checker runs beside the memory the tiles share.  Its shadow memory holds the tile's last accepted
writes, its queues the requests of each port from the number of responses on, so it reads the `n`-th response
of a port as one to the `n`-th request.

* `Sim` — the checker's variables in terms of the tile's trace; every legal clock edge keeps it.
* `edge_reports_iff` — one edge raises no alarm exactly if its responses fit.
* `pass_of_no_reports` — a run without alarms ends with `STATUS: PASS`.
* `reports_eq_nil_iff` — over a run: no alarm exactly if every response agrees with the request that has its
  number.
-/

set_option autoImplicit false

namespace CachePool

namespace TcdmChecker

open Amo (wordOf)

/-! ## The checker's own test of a response -/

theorem byteReports_eq_nil_iff (k : Nat) (e : MmOutstanding) (data : BitVec 32) (b : Nat) :
    byteReports k e data b = [] ↔
      (e.expectedMask.getLsbD b = true → byteOf data b = byteOf e.expectedData b) := by
  unfold byteReports
  split
  · next h => exact ⟨nofun, fun h' => absurd (h' h.1) h.2⟩
  · next h => exact ⟨fun _ hmask => not_not.mp fun hne => h ⟨hmask, hne⟩, fun _ => rfl⟩

theorem rspReports_eq_nil_iff {port : Port} (hp : port.pValid = true) (k : Nat) (q : List MmOutstanding) :
    rspReports port k q = [] ↔
      ∃ d ∈ q.head?, d.isWrite = port.p.write ∧
        (d.isWrite = false → ∀ b, b < 4 → d.expectedMask.getLsbD b = true →
          byteOf port.p.data b = byteOf d.expectedData b) := by
  unfold rspReports
  rw [if_pos hp]
  cases q with
  | nil => simp
  | cons d rest =>
    simp only [List.head?_cons, Option.mem_def, Option.some.injEq, exists_eq_left']
    by_cases hw : d.isWrite = port.p.write
    · rw [if_neg (not_not.mpr hw)]
      cases hr : d.isWrite with
      | true => simp [← hr, hw]
      | false =>
        simp only [Bool.not_false, if_true, List.flatMap_eq_nil_iff, List.mem_range, byteReports_eq_nil_iff]
        rw [← hr]
        simp [hw]
    · simp [hw]

/-! ## The simulation -/

/-- The checker's variables, read off the trace of the tile's ports. -/
structure Sim (c : State) (s : Shared) : Prop where
  shadow : c.mmMem = shadowOf s.accepted
  queue : ∀ k, c.mmQ k = (waiting Issue.answered (s.issued k)).map Issue.outstanding

theorem Sim.init (mem : Amo.Mem) : Sim State.init ⟨mem, [], fun _ => []⟩ :=
  ⟨rfl, fun _ => rfl⟩

/-- An accepted request. -/
theorem Sim.accept {c : State} {s : Shared} (h : Sim c s) (port : Port) (k : Nat) :
    Sim (request port k c) (s.accept port k) := by
  unfold request Shared.accept
  cases port.qValid && port.qReady with
  | false => exact h
  | true =>
    refine ⟨?_, ?_⟩
    · simp [h.shadow]
    · intro j
      by_cases hj : j = k
      · subst hj
        simp only [if_true, Function.update_self, h.queue j, h.shadow]
        rw [waiting_concat rfl, List.map_append]
        rfl
      · simp only [if_true, Function.update_of_ne hj, h.queue j]

theorem Sim.acceptAll {c : State} {s : Shared} (h : Sim c s) (K : Nat) (ports : Nat → Port) :
    Sim (requests K ports c) (s.acceptAll K ports) := by
  unfold requests Shared.acceptAll
  induction List.range K generalizing c s with
  | nil => exact h
  | cons k ks ih => exact ih (h.accept (ports k) k)

/-- What happens inside the memory is not seen on the ports. -/
theorem Sim.act {c : State} {s : Shared} (h : Sim c s) (a : Act) : Sim c (s.act a) := by
  cases a with
  | other w v => exact ⟨h.shadow, h.queue⟩
  | perform k i scOk =>
    simp only [Shared.act]
    split
    · refine ⟨h.shadow, ?_⟩
      intro j
      rw [h.queue j]
      by_cases hj : j = k
      · subst hj
        simp only [Shared.found, Function.update_self]
        rw [map_waiting_modify]
        · exact fun _ => rfl
        · exact fun _ => rfl
      · simp only [Shared.found, Function.update_of_ne hj]
    · exact h

theorem Sim.settled {c : State} {s : Shared} (h : Sim c s) (K : Nat) (x : Cycle) :
    Sim (requests K x.ports c) (s.settled K x) := by
  unfold Shared.settled
  apply List.foldlRecOn (motive := fun s => Sim (requests K x.ports c) s)
  · exact h.acceptAll K x.ports
  · exact fun s' h' a _ => h'.act a

/-- The responses: each drops the oldest entry of its port. -/
theorem Sim.answer {c : State} {s : Shared} (h : Sim c s) {K : Nat} {x : Cycle}
    (hans : ∀ k, k < K → (x.ports k).pValid = true →
      ∃ e ∈ (s.issued k)[x.answers k]?, Answers e (x.ports k).p) :
    Sim (responses K x.ports c) (s.answer x K) := by
  refine ⟨by rw [responses_mem]; exact h.shadow, ?_⟩
  intro k
  rw [responses_queue]
  unfold Shared.answer
  by_cases hk : k < K
  · simp only [hk, if_true]
    cases hp : (x.ports k).pValid with
    | false => exact h.queue k
    | true =>
      obtain ⟨e, he, hfresh, -⟩ := hans k hk hp
      simp only [if_true, h.queue k]
      rw [map_waiting_mark he hfresh]
      · rfl
      · exact fun _ => rfl
  · simp only [hk, if_false]
    exact h.queue k

/-- **The response of one port**: no alarm is raised exactly if it agrees with the request that has the
number of the response. -/
theorem rspReports_iff {c : State} {s : Shared} (h : Sim c s) {port : Port} (hp : port.pValid = true)
    {k : Nat} {e : Issue} {i : Nat} (he : (s.issued k)[i]? = some e) (hans : Answers e port.p) :
    rspReports port k (c.mmQ k) = [] ↔ ∀ d ∈ (s.issued k)[responded (s.issued k)]?, Agree d e := by
  obtain ⟨hfresh, hdone, -, hwrite, hdata⟩ := hans
  obtain ⟨d, hd⟩ := exists_waiting he hfresh
  have hd' : (s.issued k)[responded (s.issued k)]? = some d := hd
  rw [rspReports_eq_nil_iff hp, h.queue k, List.head?_map, head?_waiting, hd, hd']
  simp only [Option.map_some, Option.mem_def, Option.some.injEq, exists_eq_left', forall_eq',
    outstanding_isWrite, hwrite]
  unfold Agree
  apply and_congr_right
  intro hkind
  apply imp_congr_right
  intro hread
  rw [hkind] at hread
  rw [expected_iff (hkind.trans hread), hdata hread]
  simp

/-! ## The checker beside the memory -/

structure Sys where
  chk : State
  env : Shared

def machine (mmEnable : Bool) (K : Nat) (mem : Amo.Mem) : Machine Sys Cycle where
  init := ⟨State.init, ⟨mem, [], fun _ => []⟩⟩
  next s x := ⟨edge mmEnable K x.rstNi x.ports s.chk, s.env.next K x⟩

theorem sim_next {K : Nat} {mem : Amo.Mem} {s : Sys} {x : Cycle} (h : Sim s.chk s.env)
    (hlegal : Legal K s.env x) :
    Sim ((machine true K mem).next s x).chk ((machine true K mem).next s x).env := by
  cases hr : x.rstNi with
  | false =>
    simp only [machine, edge, Shared.next, hr]
    exact ⟨h.shadow, fun _ => rfl⟩
  | true =>
    simp only [machine, edge, Shared.next, hr]
    exact (h.settled K x).answer (hlegal hr).2

/-- **One clock edge.**  It raises no alarm exactly if its responses fit. -/
theorem edge_reports_iff {K : Nat} {mem : Amo.Mem} {s : Sys} {x : Cycle} (h : Sim s.chk s.env)
    (hlegal : Legal K s.env x) :
    ((machine true K mem).next s x).chk.reports = [] ↔ s.chk.reports = [] ∧ Fits K s.env x := by
  unfold Fits
  cases hr : x.rstNi with
  | false => simp [machine, edge, State.reset, hr]
  | true =>
    have hreq : (requests K x.ports s.chk).reports = s.chk.reports := by
      apply List.foldlRecOn (motive := fun c => State.reports c = s.chk.reports) _ _ rfl
      intro c hc k _
      rw [request_reports, hc]
    simp only [machine, edge, hr, Bool.not_true, if_true, Bool.false_eq_true, if_false, true_implies]
    rw [responses_reports, hreq, List.append_eq_nil_iff, List.flatMap_eq_nil_iff]
    apply and_congr_right
    intro _
    apply forall_congr'
    intro k
    rw [List.mem_range]
    apply imp_congr_right
    intro hk
    cases hp : (x.ports k).pValid with
    | false => simp [rspReports, hp]
    | true =>
      obtain ⟨e, he, hans⟩ := (hlegal hr).2 k hk hp
      rw [rspReports_iff (h.settled K x) hp he hans, Option.mem_def.mp he]
      simp

theorem reports_of_disabled (K : Nat) (mem : Amo.Mem) (xs : List Cycle) :
    ((machine false K mem).run xs).chk.reports = [] := by
  apply Machine.invariant_of_next (P := fun s : Sys => s.chk.reports = []) rfl
  intro s x h
  simp only [machine, edge]
  cases x.rstNi <;> exact h

/-- A run without alarms ends with `STATUS: PASS`. -/
theorem pass_of_no_reports (mmEnable : Bool) (K : Nat) (mem : Amo.Mem) (xs : List Cycle)
    (h : ((machine mmEnable K mem).run xs).chk.reports = []) :
    ((machine mmEnable K mem).run xs).chk.pass := by
  have hcount : ((machine mmEnable K mem).run xs).chk.Counted := by
    apply Machine.invariant_of_next (P := fun s : Sys => s.chk.Counted)
    · exact fun _ => ⟨rfl, rfl, rfl⟩
    · exact fun s x hs => hs.edge mmEnable K x.rstNi x.ports
  exact hcount h

/-- **The exact condition of a run without alarms.**  Whatever the memory is at the start and whatever a run
does that the shared memory can do, the checker reports nothing exactly if it is off or each response agrees
with the request of its port that has its number. -/
theorem reports_eq_nil_iff (mmEnable : Bool) (K : Nat) (mem : Amo.Mem) (xs : List Cycle)
    (h : (machine mmEnable K mem).Meets (fun s x => Legal K s.env x) xs) :
    ((machine mmEnable K mem).run xs).chk.reports = [] ↔
      (mmEnable = true → (machine mmEnable K mem).Meets (fun s x => Fits K s.env x) xs) := by
  cases mmEnable with
  | false => simp [reports_of_disabled]
  | true =>
    rw [Machine.verdict_iff (P := fun s => Sim s.chk s.env) (Q := fun s => s.chk.reports = [])
      (D := fun s x => Fits K s.env x) (Sim.init mem) rfl (fun _ _ hs hx => sim_next hs hx)
      (fun _ _ hs hx => edge_reports_iff hs hx) xs h]
    simp

/-! ## Alarms of a memory that does nothing wrong -/

def userOf (id : Nat) : TcdmUser := ⟨0, 0, false, id, false⟩

/-- A clock edge of a tile with one port. -/
def cycleOf (req : Option TcdmReqChan) (acts : List Act) (rsp : Option (Nat × TcdmRspChan)) : Cycle where
  rstNi := true
  ports _ :=
    ⟨req.isSome, req.getD ⟨0, false, .AMONone, 0, 0, userOf 0⟩, true, rsp.isSome,
      (rsp.map Prod.snd).getD ⟨0, false, userOf 0⟩⟩
  acts := acts
  answers _ := (rsp.map Prod.fst).getD 0

def writeReq (addr data : BitVec 32) (id : Nat) : TcdmReqChan := ⟨addr, true, .AMONone, data, 0xF, userOf id⟩

def readReq (addr : BitVec 32) (id : Nat) : TcdmReqChan := ⟨addr, false, .AMONone, 0, 0xF, userOf id⟩

/-- A write, and a read of another word that is answered first. -/
def overtaken : List Cycle :=
  [cycleOf (some (writeReq 0 5 0)) [] none,
    cycleOf (some (readReq 4 1)) [.perform 0 1 false] none,
    cycleOf none [] (some (1, ⟨0, false, userOf 1⟩))]

/-- A write and a read of one word, answered in order, with a write of another tile between them. -/
def shared : List Cycle :=
  [cycleOf (some (writeReq 0 5 0)) [.perform 0 0 false] none,
    cycleOf (some (readReq 0 1)) [.other 0 9, .perform 0 1 false] (some (0, ⟨0, true, userOf 0⟩)),
    cycleOf none [] (some (1, ⟨9, false, userOf 1⟩))]

/-- The same without the other tile. -/
def alone : List Cycle :=
  [cycleOf (some (writeReq 0 5 0)) [.perform 0 0 false] none,
    cycleOf (some (readReq 0 1)) [.perform 0 1 false] (some (0, ⟨0, true, userOf 0⟩)),
    cycleOf none [] (some (1, ⟨5, false, userOf 1⟩))]

theorem reports_eq_nil_alone : ((machine true 1 fun _ => 0).run alone).chk.reports = [] :=
  (reports_eq_nil_iff true 1 (fun _ => 0) alone (by decide +kernel)).mpr fun _ => by decide +kernel

theorem reports_false_alarm :
    ((machine true 1 fun _ => 0).Meets (fun s x => Legal 1 s.env x) overtaken ∧
      ((machine true 1 fun _ => 0).run overtaken).chk.reports = [.typeMismatch 0 0 true false]) ∧
    ((machine true 1 fun _ => 0).Meets (fun s x => Legal 1 s.env x) shared ∧
      ((machine true 1 fun _ => 0).run shared).chk.reports = [.dataMismatch 0 0 0 5 9]) :=
  ⟨⟨by decide +kernel, by decide +kernel⟩, ⟨by decide +kernel, by decide +kernel⟩⟩

end TcdmChecker

end CachePool
