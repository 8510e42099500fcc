import CachePool.Omp.ForkJoin

/-!
# When `eu_run_empty` returns

The store with which a worker means to clear its interrupt bit waits at the tile barrier for the other cores
of the tile.  Core 0 never comes.

* `Free`, `free_run` — nobody is held where every core is alone on its tile, or where no task wakes a worker.
* `work_down` — then some core can always go on, until every task has been run.
* `stepMain_phase` — what a step of core 0 does to the phase of the round.
* `Confined`, `confined_run` — a second core on core 0's tile never gets past its store, and core 0 never past
  the first task for more than one thread.
* `forkJoin_of_noStaleReturn`, `worker_runs_twice` — the event unit forks and joins; the bit that is never
  cleared makes a worker run a task twice.
-/

set_option autoImplicit false

namespace CachePool

namespace Omp

namespace EventUnit

variable {n k : Nat} {tasks : List Task} {s : EventUnit n}

/-! ## Nobody is held -/

/-- A worker alone on its tile gets through its barrier at once. -/
theorem stepWorker_clr_alone {i : Fin n} (hpc : (s.workers i).pc = .clr) :
    s.stepWorker 1 i = s.setWorker i { s.workers i with pc := .subWfi } := by
  have hsame : ∀ j : Fin n, coreIdx j = coreIdx i ↔ j = i := by
    intro j
    simp [coreIdx, Fin.ext_iff]
  have hall : (s.setWorker i { s.workers i with pc := .held }).LocalBarrier 1 (coreIdx i) := by
    refine ⟨by simp [tileIdx, coreIdx], fun j hj => ?_⟩
    rw [(hsame j).mp (by simpa [tileIdx] using hj)]
    simp [setWorker]
  simp only [stepWorker, hpc, tileIdx, Nat.div_one, tileBarrier, if_pos hall, snrtIntClusterClr_eq]
  simp only [setWorker, hsame, EventUnit.mk.injEq, true_and, and_true]
  funext j
  by_cases hji : j = i
  · subst hji
    simp
  · simp [hji]

/-- A worker's step leaves the round and core 0 alone. -/
theorem stepWorker_main (s : EventUnit n) (i : Fin n) :
    (s.stepWorker k i).round = s.round ∧ (s.stepWorker k i).main = s.main := by
  cases hpc : (s.workers i).pc
  case wfi =>
    by_cases hset : s.clint.getLsbD (coreIdx i) = true
    · simp [stepWorker, hpc, setWorker, hset]
    · simp [stepWorker, hpc, hset]
  case clr =>
    simp only [stepWorker, hpc, tileBarrier]
    split <;> simp [setWorker]
  all_goals simp [stepWorker, hpc, setWorker]

/-- A step of a worker alone on its tile leaves the other workers alone. -/
theorem stepWorker_frame (s : EventUnit n) (i : Fin n) :
    (s.stepWorker 1 i).workers = Function.update s.workers i ((s.stepWorker 1 i).workers i) := by
  cases hpc : (s.workers i).pc
  case wfi =>
    by_cases hset : s.clint.getLsbD (coreIdx i) = true
    · simp [stepWorker, hpc, setWorker, hset]
    · simp [stepWorker, hpc, hset]
  case clr => simp [stepWorker_clr_alone hpc, setWorker]
  all_goals simp [stepWorker, hpc, setWorker]

/-- Core 0 moves no worker. -/
theorem stepMain_pc (s : EventUnit n) (i : Fin n) :
    ((s.stepMain tasks).workers i).pc = (s.workers i).pc := by
  unfold stepMain
  split <;> simp only [goto, afterCall, wakeWorkers] <;> split <;> rfl

/-- Only core 0's `wake_workers` changes what the workers know. -/
theorem stepMain_workers (hpc : s.main.pc ≠ .wakeSet) : (s.stepMain tasks).workers = s.workers := by
  unfold stepMain
  split <;> simp only [goto, afterCall] <;> first | rfl | (split <;> rfl) | contradiction

/-- The worker waits, and nobody has woken it. -/
def Waits (w : Worker) : Prop := w.woken = false ∧ w.pc = .wfi

/-- No worker is held, each being alone on its tile; or none of them is awake. -/
def Free (k : Nat) (s : EventUnit n) : Prop :=
  (k = 1 ∧ ∀ i, (s.workers i).pc ≠ .held) ∨ ∀ i, Waits (s.workers i)

/-- Alone on its tile a worker is not held. -/
theorem stepWorker_pc_ne_held (i : Fin n) (h : (s.workers i).pc ≠ .held) :
    ((s.stepWorker 1 i).workers i).pc ≠ .held := by
  cases hpc : (s.workers i).pc
  case held => exact absurd hpc h
  case clr => simp [stepWorker_clr_alone hpc, setWorker]
  case wfi =>
    by_cases hset : s.clint.getLsbD (coreIdx i) = true
    · simp [stepWorker, hpc, setWorker, hset]
    · simp [stepWorker, hpc, hset]
  case checkExit | checkNthreads =>
    simp only [stepWorker, hpc, setWorker, Function.update_self]
    split <;> simp
  all_goals simp [stepWorker, hpc, setWorker]

theorem none_held : ∀ xs : List (Core n), (machine n 1 tasks).Meets NoStaleReturn xs →
    ∀ i, (((machine n 1 tasks).run xs).workers i).pc ≠ .held := by
  apply Machine.invariant (P := fun s : EventUnit n => ∀ i, (s.workers i).pc ≠ .held)
  · intro i
    exact (by decide : WorkerPc.wfi ≠ .held)
  · intro s x hs _ i
    cases x with
    | main =>
      have hsame : ((s.stepMain tasks).workers i).pc = (s.workers i).pc := stepMain_pc s i
      exact fun hheld => hs i (hsame.symm.trans hheld)
    | worker j =>
      change ((s.stepWorker 1 j).workers i).pc ≠ .held
      by_cases hij : i = j
      · subst hij
        exact stepWorker_pc_ne_held i (hs i)
      · rw [stepWorker_frame, Function.update_of_ne hij]
        exact hs i

/-- Where every team is core 0 alone, nobody is woken. -/
theorem all_wait (hn : n ≤ 30) (hpos : ∀ t ∈ tasks, 1 ≤ t.nthreads) (hteam : ∀ t ∈ tasks, t.nthreads ≤ n + 1)
    (hsingle : ∀ t ∈ tasks, t.nthreads ≤ 1) (xs : List (Core n))
    (h : (machine n k tasks).Meets NoStaleReturn xs) :
    ∀ i, Waits (((machine n k tasks).run xs).workers i) := by
  refine (Machine.invariant (P := fun s : EventUnit n => s.Inv tasks ∧ ∀ i, Waits (s.workers i)) ?_ ?_ xs h).2
  · exact ⟨inv_init n tasks, fun _ => ⟨rfl, rfl⟩⟩
  · rintro s x ⟨I, hs⟩ hx
    cases x with
    | main =>
      refine ⟨I.main_step hn hpos hteam, ?_⟩
      by_cases hpc : s.main.pc = .wakeSet
      · obtain ⟨t, ht, hat⟩ := I.main.task (by rw [hpc]; decide)
        simp only [MainAt, hpc] at hat
        have hone := hsingle t (List.mem_of_getElem? ht)
        omega
      · change ∀ i, Waits ((s.stepMain tasks).workers i)
        rw [stepMain_workers hpc]
        exact hs
    | worker i =>
      refine ⟨I.worker_step hx, ?_⟩
      change ∀ j, Waits ((s.stepWorker k i).workers j)
      rw [stepWorker_waits (hs i).2 (hs i).1 hx]
      exact hs

theorem free_run (hn : n ≤ 30) (hpos : ∀ t ∈ tasks, 1 ≤ t.nthreads) (hteam : ∀ t ∈ tasks, t.nthreads ≤ n + 1)
    (hfree : k = 1 ∨ ∀ t ∈ tasks, t.nthreads ≤ 1) (xs : List (Core n))
    (h : (machine n k tasks).Meets NoStaleReturn xs) : ((machine n k tasks).run xs).Free k := by
  rcases hfree with rfl | hsingle
  · exact Or.inl ⟨rfl, none_held xs h⟩
  · exact Or.inr (all_wait hn hpos hteam hsingle xs h)

/-! ## Some core can go on -/

/-- Steps left of the round for core 0. -/
def mainLeft : MainPc → Nat
  | .pushLoad => 20 | .pushPoll => 19 | .setFn => 18 | .setData => 17 | .setArgc => 16 | .setNthreads => 15
  | .runLoad => 14 | .resetFini => 13 | .wakeLoad => 12 | .wakePoll => 11 | .wakeSet => 10 | .check => 9
  | .loadFn => 8 | .loadData => 7 | .loadArgc => 6 | .call => 5 | .running => 4 | .loadInLoop => 3
  | .pollFini => 2 | .resetNthreads => 1

/-- Steps left of the round for a worker. -/
def workerLeft (w : Worker) : Nat :=
  match w.pc with
  | .wfi => if w.woken then 13 else 0
  | .clr => 12 | .subWfi => 11 | .checkExit => 10 | .checkNthreads => 9 | .copyNthreads => 8 | .loadFn => 7
  | .loadData => 6 | .loadArgc => 5 | .call => 4 | .running => 3 | .addFini => 2 | .addWfi => 1
  | .held | .returned => 0

theorem workerLeft_le (w : Worker) : workerLeft w ≤ 13 := by
  unfold workerLeft
  split <;> try omega
  split <;> omega

/-- What is left: a step of core 0 outweighs everything the workers have left. -/
def left (tasks : List Task) (s : EventUnit n) : Nat :=
  (n * 13 + 1) * (20 * (tasks.length - s.round) + mainLeft s.main.pc) + tally workerLeft s.workers

/-- A worker that has steps left brings them down. -/
theorem Inv.workerLeft_lt (I : s.Inv tasks) {i : Fin n} (hleft : workerLeft (s.workers i) ≠ 0) :
    workerLeft ((s.stepWorker 1 i).workers i) < workerLeft (s.workers i) := by
  cases hpc : (s.workers i).pc
  case wfi =>
    have hwoken : (s.workers i).woken = true := by
      by_contra hn
      simp [workerLeft, hpc, hn] at hleft
    simp [stepWorker, hpc, I.bit i hwoken, setWorker, workerLeft, hwoken]
  case checkExit => simp [stepWorker, hpc, I.exit, setWorker, workerLeft]
  case checkNthreads =>
    by_cases hteam : coreIdx i < s.eu.nthreads
    · simp [stepWorker, hpc, hteam, setWorker, workerLeft]
    · simp [stepWorker, hpc, hteam, setWorker, workerLeft]
  case addWfi =>
    -- a worker is not woken on its way into `wfi`
    have hwoken : (s.workers i).woken = false := by
      have hat := I.workers i
      unfold WorkerOk at hat
      cases hphase : s.main.phase with
      | window =>
        simp only [hphase, WindowOk, hpc] at hat
        exact hat.1
      | asleep =>
        simp only [hphase] at hat
        exact hat.1
      | resting | joined =>
        simp only [hphase] at hat
        exact hat.1.1
    simp [stepWorker, hpc, setWorker, workerLeft, hwoken]
  case clr => simp [stepWorker_clr_alone hpc, setWorker, workerLeft, hpc]
  case held | returned => simp [workerLeft, hpc] at hleft
  all_goals simp [stepWorker, hpc, setWorker, workerLeft]

theorem Inv.worker_down (I : s.Inv tasks) {i : Fin n} (hleft : workerLeft (s.workers i) ≠ 0) :
    s.NoStaleReturn (.worker i) ∧ left tasks (s.stepWorker 1 i) < left tasks s := by
  obtain ⟨hround, hmain⟩ := stepWorker_main (k := 1) s i
  have hworkers := stepWorker_frame s i
  have hlt := I.workerLeft_lt hleft
  have hupd := tally_update workerLeft s.workers i ((s.stepWorker 1 i).workers i)
  constructor
  · intro hpc _
    by_contra hn
    simp [workerLeft, hpc, hn] at hleft
  · unfold left
    rw [hworkers, hround, hmain]
    omega

/-- A worker that is not held and has no step left waits. -/
theorem Inv.waits_of_left (I : s.Inv tasks) {i : Fin n} (hheld : (s.workers i).pc ≠ .held)
    (hleft : workerLeft (s.workers i) = 0) : Waits (s.workers i) := by
  have hpc : (s.workers i).pc = .wfi ∨ (s.workers i).pc = .returned := by
    cases hpc : (s.workers i).pc <;> simp [workerLeft, hpc] at hleft hheld ⊢
  rcases hpc with hpc | hpc
  · refine ⟨?_, hpc⟩
    by_contra hn
    simp [workerLeft, hpc, hn] at hleft
  · exfalso
    have hworker := I.workers i
    unfold WorkerOk at hworker
    cases hphase : s.main.phase <;> simp [hphase, Worker.Idle, WindowOk, hpc] at hworker

/-- Where every worker waits, core 0 has one that brings its own down. -/
theorem Inv.main_down (I : s.Inv tasks) (hpos : ∀ t ∈ tasks, 1 ≤ t.nthreads) (hmore : s.round < tasks.length)
    (hwaits : ∀ i, Waits (s.workers i)) :
    20 * (tasks.length - (s.stepMain tasks).round) + mainLeft (s.stepMain tasks).main.pc <
      20 * (tasks.length - s.round) + mainLeft s.main.pc := by
  obtain ⟨t, ht⟩ : ∃ t, tasks[s.round]? = some t := ⟨_, List.getElem?_eq_getElem hmore⟩
  have hlt := hpos t (List.mem_of_getElem? ht)
  have hat : s.main.pc ≠ .pushLoad → s.MainAt t := by
    intro hpc
    obtain ⟨t', ht', hat⟩ := I.main.task hpc
    rw [ht] at ht'
    cases ht'
    exact hat
  -- every worker counts in both counters
  have hwfi : s.eu.workersWfi = n := by
    rw [I.wfi, tally_eq_card (fun i => by simp [Worker.inWfi, (hwaits i).2]), Fintype.card_fin]
  have hfini : s.main.phase = .window → s.eu.finiCount = n := by
    intro hwin
    have hidle : ∀ i, (s.workers i).idle = 1 := fun i => by
      simp [Worker.idle, Worker.Idle, (hwaits i).1, (hwaits i).2]
    rw [I.fini hwin, tally_eq_card hidle, Fintype.card_fin]
  cases hpc : s.main.pc
  case pushLoad => simp [stepMain, hpc, ht, mainLeft]
  case pushPoll | wakePoll =>
    have hmain := hat (by rw [hpc]; decide)
    simp only [MainAt, hpc] at hmain
    simp [stepMain, hpc, hwfi, hmain, goto, mainLeft]
  case setFn | setData | setArgc | setNthreads => simp [stepMain, hpc, ht, goto, mainLeft]
  case runLoad | check =>
    have hmain := hat (by rw [hpc]; decide)
    simp only [MainAt, hpc] at hmain
    have hsome : s.eu.nthreads ≠ 0 := by
      first
      | rw [hmain.2.nthreads]; omega
      | rw [hmain.2.1.nthreads]; omega
    simp [stepMain, hpc, hsome, Nat.pos_of_ne_zero hsome, goto, mainLeft]
  case resetFini =>
    by_cases hmany : 1 < s.main.scratch
    · simp [stepMain, hpc, hmany, goto, mainLeft]
    · simp [stepMain, hpc, hmany, goto, mainLeft]
  case wakeLoad | loadFn | loadData | loadArgc | call | loadInLoop => simp [stepMain, hpc, mainLeft]
  case wakeSet => simp [stepMain, hpc, wakeWorkers, goto, mainLeft]
  case running =>
    by_cases hmany : 1 < s.main.scratch
    · simp [stepMain, hpc, afterCall, hmany, goto, mainLeft]
    · simp [stepMain, hpc, afterCall, hmany, goto, mainLeft]
  case pollFini =>
    have hmain := hat (by rw [hpc]; decide)
    simp only [MainAt, hpc] at hmain
    have hall := hfini (by simp [Main.phase, hpc])
    simp [stepMain, hpc, hall, hmain, goto, mainLeft]
  case resetNthreads =>
    simp only [stepMain, hpc, goto, mainLeft]
    omega

/-- **Progress.**  Until every task has been run, some step that returns from no old wake-up brings down what
is left. -/
theorem Inv.work_down (I : s.Inv tasks) (hpos : ∀ t ∈ tasks, 1 ≤ t.nthreads) (hfree : s.Free k)
    (hmore : ¬ s.AllRun tasks) : ∃ x, s.NoStaleReturn x ∧ left tasks (next k tasks s x) < left tasks s := by
  by_cases hquiet : ∀ i, workerLeft (s.workers i) = 0
  · refine ⟨.main, trivial, ?_⟩
    have hwaits : ∀ i, Waits (s.workers i) := by
      intro i
      rcases hfree with ⟨_, hnone⟩ | hwaits
      · exact I.waits_of_left (hnone i) (hquiet i)
      · exact hwaits i
    have hdown := I.main_down hpos (by unfold AllRun at hmore; omega) hwaits
    have hle := tally_le workerLeft_le (s.stepMain tasks).workers
    have hzero : tally workerLeft s.workers = 0 := tally_eq_zero_iff.mpr hquiet
    rw [Fintype.card_fin] at hle
    unfold left
    rw [hzero]
    calc (n * 13 + 1) * _ + tally workerLeft (s.stepMain tasks).workers
        < (n * 13 + 1) *
          (20 * (tasks.length - (s.stepMain tasks).round) + mainLeft (s.stepMain tasks).main.pc + 1) := by
          rw [Nat.mul_succ]
          exact Nat.add_lt_add_left (by omega) _
      _ ≤ _ := Nat.mul_le_mul_left _ hdown
  · obtain ⟨i, hleft⟩ := not_forall.mp hquiet
    rcases hfree with ⟨rfl, _⟩ | hwaits
    · obtain ⟨hfresh, hdown⟩ := I.worker_down hleft
      exact ⟨.worker i, hfresh, hdown⟩
    · exact absurd (by simp [workerLeft, (hwaits i).1, (hwaits i).2]) hleft

/-! ## Who is held for ever -/

/-- Where core 0 is from its next step on: in the same phase of the round, or in the next one. -/
theorem Inv.stepMain_phase (I : s.Inv tasks) (hn : n ≤ 30) (hpos : ∀ t ∈ tasks, 1 ≤ t.nthreads) :
    let s' := s.stepMain tasks
    (s'.main.phase = s.main.phase ∧ s'.round = s.round ∧ s'.workers = s.workers) ∨
    (s.main.phase = .resting ∧ s'.main.phase = .asleep ∧ s'.round = s.round ∧ s'.workers = s.workers) ∨
    (s.main.phase = .asleep ∧ s'.main.phase = .window ∧ s'.round = s.round ∧
      s'.workers = fun i => { s.workers i with woken := true }) ∨
    (s.main.phase = .asleep ∧ s'.main.phase = .joined ∧ s'.round = s.round ∧ s'.workers = s.workers ∧
      ∀ t, tasks[s.round]? = some t → t.nthreads ≤ 1) ∨
    (s.main.phase = .window ∧ s'.main.phase = .joined ∧ s'.round = s.round ∧ s'.workers = s.workers ∧
      ∀ i, (s.workers i).Idle) ∨
    (s.main.phase = .joined ∧ s'.main.phase = .resting ∧ s'.round = s.round + 1 ∧
      s'.workers = s.workers) := by
  intro s'
  by_cases hstart : s.main.pc = .pushLoad
  · left
    cases ht : tasks[s.round]? <;> simp [s', stepMain, hstart, ht, Main.phase]
  · obtain ⟨t, ht, hat⟩ := I.main.task hstart
    have hlt := hpos t (List.mem_of_getElem? ht)
    cases hpc : s.main.pc
    case pushLoad => exact absurd hpc hstart
    case pushPoll =>
      by_cases hpoll : s.eu.workersWfi = s.main.target
      · right; left
        simp [s', stepMain, hpc, hpoll, goto, Main.phase]
      · left
        simp [s', stepMain, hpc, hpoll]
    case wakeSet =>
      simp only [MainAt, hpc] at hat
      have hmany : 1 < s.main.scratch := by omega
      right; right; left
      simp [s', stepMain, hpc, goto, wakeWorkers, Main.phase, hmany, getLsbD_wakeMask hn]
    case running =>
      simp only [MainAt, hpc] at hat
      by_cases hmany : 1 < s.main.scratch
      · left
        simp [s', stepMain, hpc, afterCall, goto, Main.phase, hmany]
      · right; right; right; left
        simp only [s', stepMain, hpc, afterCall, goto, Main.phase, hmany, if_false, true_and]
        intro t' ht'
        rw [ht, Option.some.injEq] at ht'
        subst ht'
        omega
    case pollFini =>
      by_cases hpoll : s.eu.finiCount = s.main.target
      · simp only [MainAt, hpc] at hat
        have hwin : s.main.phase = .window := by simp [Main.phase, hpc]
        have hall : ∀ i, (s.workers i).idle = 1 := by
          apply eq_one_of_tally_eq Worker.idle_le
          rw [← I.fini hwin, hpoll, hat.2.1, Fintype.card_fin]
        right; right; right; right; left
        refine ⟨hwin, ?_, ?_, ?_, fun i => Worker.idle_eq_one (hall i)⟩ <;>
          simp [s', stepMain, hpc, hpoll, goto, Main.phase]
      · left
        simp [s', stepMain, hpc, hpoll]
    case resetNthreads =>
      right; right; right; right; right
      simp [s', stepMain, hpc, goto, Main.phase]
    case runLoad =>
      simp only [MainAt, hpc] at hat
      have hsome : s.eu.nthreads ≠ 0 := by
        rw [hat.2.nthreads]
        omega
      left
      simp [s', stepMain, hpc, hsome, Main.phase]
    case check =>
      simp only [MainAt, hpc] at hat
      have hsome : 0 < s.eu.nthreads := by
        rw [hat.2.1.nthreads]
        omega
      left
      simp [s', stepMain, hpc, hsome, goto, Main.phase]
    case resetFini =>
      left
      by_cases hmany : 1 < s.main.scratch
      · simp [s', stepMain, hpc, hmany, goto, Main.phase]
      · simp [s', stepMain, hpc, hmany, goto, Main.phase]
    case wakePoll =>
      left
      by_cases hpoll : s.eu.workersWfi = s.main.target
      · simp [s', stepMain, hpc, hpoll, goto, Main.phase]
      · simp [s', stepMain, hpc, hpoll]
    all_goals
      left
      simp [s', stepMain, hpc, ht, goto, Main.phase]

/-- Worker `i` is on core 0's tile. -/
def OnTileOfMain (k : Nat) (i : Fin n) : Prop := tileIdx k (coreIdx i) = tileIdx k 0

/-- Once woken, worker `i` stays at its `wfi` or at its store; and no round was for more than one thread. -/
def Confined (tasks : List Task) (i : Fin n) (s : EventUnit n) : Prop :=
  (∀ r < s.round, ∀ t, tasks[r]? = some t → t.nthreads ≤ 1) ∧
    match s.main.phase with
    | .window =>
      (s.workers i).woken = true ∧ (s.workers i).pc = .wfi ∨ (s.workers i).pc = .clr ∨
        (s.workers i).pc = .held
    | .joined => Waits (s.workers i) ∧ ∀ t, tasks[s.round]? = some t → t.nthreads ≤ 1
    | _ => Waits (s.workers i)

theorem tileBarrier_of_main (i : Fin n) (hi : OnTileOfMain k i) :
    s.tileBarrier k (tileIdx k (coreIdx i)) = s := by
  rw [tileBarrier, if_neg]
  rintro ⟨hne, _⟩
  exact hne hi.symm

/-- The other workers' steps leave a worker on core 0's tile where it is. -/
theorem stepWorker_other {i j : Fin n} (hi : OnTileOfMain k i) (hij : i ≠ j) :
    (s.stepWorker k j).workers i = s.workers i := by
  cases hpc : (s.workers j).pc
  case wfi =>
    by_cases hset : s.clint.getLsbD (coreIdx j) = true
    · simp [stepWorker, hpc, setWorker, hset, hij]
    · simp [stepWorker, hpc, hset]
  case clr =>
    simp only [stepWorker, hpc, tileBarrier]
    split
    · rename_i hall
      have hother : tileIdx k (coreIdx i) ≠ tileIdx k (coreIdx j) := fun h => hall.1 (hi.symm.trans h)
      simp [setWorker, hij, hother]
    · simp [setWorker, hij]
  all_goals simp [stepWorker, hpc, setWorker, hij]

theorem Confined.worker_step {i : Fin n} (hi : OnTileOfMain k i) (h : Confined tasks i s) {j : Fin n}
    (hx : s.NoStaleReturn (.worker j)) : Confined tasks i (s.stepWorker k j) := by
  obtain ⟨hround, hmain⟩ := stepWorker_main (k := k) s j
  obtain ⟨hrounds, hat⟩ := h
  unfold Confined
  rw [hround, hmain]
  refine ⟨hrounds, ?_⟩
  by_cases hij : i = j
  · subst hij
    cases hphase : s.main.phase with
    | window =>
      simp only [hphase] at hat ⊢
      rcases hat with ⟨hwoken, hpc⟩ | hpc | hpc
      · by_cases hset : s.clint.getLsbD (coreIdx i) = true
        · simp [stepWorker, hpc, hset, setWorker]
        · simp [stepWorker, hpc, hset, hwoken]
      · simp [stepWorker, hpc, tileBarrier_of_main i hi, setWorker]
      · simp [stepWorker, hpc]
    | joined =>
      simp only [hphase] at hat ⊢
      rw [stepWorker_waits hat.1.2 hat.1.1 hx]
      exact hat
    | resting | asleep =>
      simp only [hphase] at hat ⊢
      rw [stepWorker_waits hat.2 hat.1 hx]
      exact hat
  · rw [stepWorker_other hi hij]
    exact hat

theorem Confined.main_step {i : Fin n} (h : Confined tasks i s) (I : s.Inv tasks) (hn : n ≤ 30)
    (hpos : ∀ t ∈ tasks, 1 ≤ t.nthreads) : Confined tasks i (s.stepMain tasks) := by
  obtain ⟨hrounds, hat⟩ := h
  unfold Confined
  obtain ⟨hphase, hround, hworkers⟩ | ⟨hold, hphase, hround, hworkers⟩ | ⟨hold, hphase, hround, hworkers⟩ |
    ⟨hold, hphase, hround, hworkers, hone⟩ | ⟨hold, hphase, hround, hworkers, hidle⟩ |
    ⟨hold, hphase, hround, hworkers⟩ := I.stepMain_phase hn hpos
  · rw [hphase, hround, hworkers]
    exact ⟨hrounds, hat⟩
  · rw [hround, hworkers]
    simp only [hold] at hat
    simp only [hphase]
    exact ⟨hrounds, hat⟩
  · rw [hround, hworkers]
    simp only [hold] at hat
    simp only [hphase]
    exact ⟨hrounds, Or.inl ⟨trivial, hat.2⟩⟩
  · rw [hround, hworkers]
    simp only [hold] at hat
    simp only [hphase]
    exact ⟨hrounds, hat, hone⟩
  · -- core 0 does not see every worker through: this one is on its way
    exfalso
    simp only [hold] at hat
    obtain ⟨hwoken, hpc⟩ := hidle i
    rcases hat with ⟨hw, _⟩ | hw | hw
    · simp [hw] at hwoken
    · simp [hw] at hpc
    · simp [hw] at hpc
  · rw [hround, hworkers]
    simp only [hold] at hat
    simp only [hphase]
    refine ⟨fun r hr t ht => ?_, hat.1⟩
    rcases Nat.lt_succ_iff_lt_or_eq.mp hr with hlt | rfl
    · exact hrounds r hlt t ht
    · exact hat.2 t ht

theorem confined_run (hn : n ≤ 30) (hpos : ∀ t ∈ tasks, 1 ≤ t.nthreads)
    (hteam : ∀ t ∈ tasks, t.nthreads ≤ n + 1) {i : Fin n} (hi : OnTileOfMain k i) (xs : List (Core n))
    (h : (machine n k tasks).Meets NoStaleReturn xs) : Confined tasks i ((machine n k tasks).run xs) := by
  refine (Machine.invariant (P := fun s : EventUnit n => s.Inv tasks ∧ Confined tasks i s) ?_ ?_ xs h).2
  · exact ⟨inv_init n tasks, fun r hr => absurd hr (Nat.not_lt_zero r), rfl, rfl⟩
  · rintro s x ⟨I, hs⟩ hx
    cases x with
    | main => exact ⟨I.main_step hn hpos hteam, hs.main_step I hn hpos⟩
    | worker j => exact ⟨I.worker_step hx, hs.worker_step hi hx⟩

/-- **The event unit forks and joins.**  For every number of workers that fits the interrupt register with
core 0, every sequence of tasks for teams of 1 to all cores, and every interleaving in which no `wfi` returns
for an old wake-up: each core of a team runs the task once with its own arguments, no other core does, and
`eu_run_empty` returns only after that.  The run can be continued until every task has been run exactly where
every core is alone on its tile, or no task is for more than core 0. -/
theorem forkJoin_of_noStaleReturn (n : Nat) (hn : n ≤ 30) (numCoresTile : Nat) (tasks : List Task)
    (hteam : ∀ t ∈ tasks, 1 ≤ t.nthreads ∧ t.nthreads ≤ n + 1) (xs : List (Core n))
    (h : (machine n numCoresTile tasks).Meets NoStaleReturn xs) :
    ((machine n numCoresTile tasks).run xs).ForkJoin tasks ∧
      ((∃ ys, (machine n numCoresTile tasks).Meets NoStaleReturn (xs ++ ys) ∧
        ((machine n numCoresTile tasks).run (xs ++ ys)).AllRun tasks) ↔
          numCoresTile = 1 ∨ ∀ t ∈ tasks, t.nthreads = 1) := by
  have hpos : ∀ t ∈ tasks, 1 ≤ t.nthreads := fun t ht => (hteam t ht).1
  have hle : ∀ t ∈ tasks, t.nthreads ≤ n + 1 := fun t ht => (hteam t ht).2
  have hinv := inv_run (k := numCoresTile) hn hpos hle
  refine ⟨(hinv xs h).runs, ?_, fun hfree => ?_⟩
  · rintro ⟨ys, hys, hall⟩
    by_contra hneither
    obtain ⟨htile, hmany⟩ := not_or.mp hneither
    obtain ⟨t, ht, hone⟩ : ∃ t ∈ tasks, t.nthreads ≠ 1 := by simpa using hmany
    have hbounds := hteam t ht
    have hn1 : 0 < n := by omega
    -- core 1 shares core 0's tile
    have hshared : OnTileOfMain numCoresTile (⟨0, hn1⟩ : Fin n) := by
      unfold OnTileOfMain tileIdx coreIdx
      rw [Nat.zero_div]
      rcases Nat.eq_zero_or_pos numCoresTile with rfl | hpos
      · exact Nat.div_zero _
      · exact Nat.div_eq_of_lt (by dsimp only; omega)
    obtain ⟨r, hr, hrt⟩ := List.getElem_of_mem ht
    have hround := (confined_run hn hpos hle hshared (xs ++ ys) hys).1 r (by unfold AllRun at hall; omega) t
      (by rw [List.getElem?_eq_getElem hr, hrt])
    omega
  · have hfree' : numCoresTile = 1 ∨ ∀ t ∈ tasks, t.nthreads ≤ 1 :=
      hfree.imp_right fun hone t ht => Nat.le_of_eq (hone t ht)
    apply Machine.exists_continuation_along (μ := left tasks) (Q := AllRun tasks) _ xs h
    intro zs hzs hmore
    obtain ⟨x, hfresh, hdown⟩ := (hinv zs hzs).work_down hpos (free_run hn hpos hle hfree' zs hzs) hmore
    exact ⟨x, Machine.meets_concat.mpr ⟨hzs, hfresh⟩, hdown⟩

/-- Two tasks for a team of both cores. -/
def twoTasks : List Task := [⟨7, 1, 3, 2⟩, ⟨8, 2, 4, 2⟩]

/-- Core 0 up to the wake-up, the worker back into `wfi`, core 0 to the end of `eu_run_empty`. -/
def oneRound {n : Nat} (i : Fin n) : List (Core n) :=
  List.replicate 11 Core.main ++ List.replicate 13 (Core.worker i) ++ List.replicate 9 Core.main

theorem forkJoin_twoRounds :
    ((machine 1 1 twoTasks).run (oneRound 0 ++ oneRound 0)).finished.map Exec.key =
        [(1, 0), (0, 0), (1, 1), (0, 1)] ∧
      ((machine 1 1 twoTasks).run (oneRound 0 ++ oneRound 0)).ForkJoin twoTasks ∧
      ∃ ys, (machine 1 1 twoTasks).Meets NoStaleReturn (oneRound 0 ++ oneRound 0 ++ ys) ∧
        ((machine 1 1 twoTasks).run (oneRound 0 ++ oneRound 0 ++ ys)).AllRun twoTasks := by
  obtain ⟨hruns, hreturns⟩ := forkJoin_of_noStaleReturn 1 (by decide) 1 twoTasks (by decide)
    (oneRound 0 ++ oneRound 0) (by decide +kernel)
  exact ⟨by decide +kernel, hruns, hreturns.mpr (Or.inl rfl)⟩

/-- The worker runs the task, and the bit it has not cleared takes it out of `wfi` before core 0 looks. -/
def workerAgain {n : Nat} (i : Fin n) : List (Core n) :=
  List.replicate 11 Core.main ++ List.replicate 23 (Core.worker i)

theorem worker_runs_twice :
    ((machine 1 1 [⟨7, 1, 3, 2⟩]).run (workerAgain 0)).started.map Exec.key = [(1, 0), (1, 0)] ∧
      ¬ ((machine 1 1 [⟨7, 1, 3, 2⟩]).run (workerAgain 0)).ForkJoin [⟨7, 1, 3, 2⟩] := by
  refine ⟨by decide +kernel, fun h => ?_⟩
  have honce := h.at_most_once
  revert honce
  decide +kernel

end EventUnit

end Omp

end CachePool
