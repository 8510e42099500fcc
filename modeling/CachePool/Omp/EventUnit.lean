import CachePool.Lib.Machine
import CachePool.Lib.Tally
import CachePool.Interrupt

/-!
# The event unit (`omp/eu.c`)

Core 0 pushes one task after the other and runs the queue empty; the other cores of the cluster sit in
`eu_event_loop`.  A step is one access to shared memory or to a peripheral register, or the start or the end
of a task function.

* `wakeMask` — the bits `wake_workers` sets.
* `MainPc`, `WorkerPc`, `stepMain`, `stepWorker` — `eu_dispatch_push` and `eu_run_empty`; `eu_event_loop`.
* `LocalBarrier`, `tileBarrier` — the tile barrier, which holds the store of `snrt_int_cluster_clr`: the store
  goes to `HW_BARRIER`.
* `ForkJoin` — what the event unit is for: each core of the team runs each task once, with that task's
  arguments, before `eu_run_empty` returns.
* `NoStaleReturn` — `wfi` does not return for a wake-up it has returned for before.
-/

set_option autoImplicit false

namespace CachePool

namespace Omp

/-- The arguments of one `eu_dispatch_push`. -/
structure Task where
  fn : Nat
  argc : Nat
  data : Nat
  nthreads : Nat
  deriving DecidableEq, Repr

/-- One call of a task function: by which core, in which round of core 0, and what was loaded for it. -/
structure Exec where
  core : Nat
  round : Nat
  fn : Nat
  data : Nat
  argc : Nat
  deriving DecidableEq, Repr

/-- Which core runs it in which round. -/
def Exec.key (e : Exec) : Nat × Nat := (e.core, e.round)

/-- `eu_t`; the mutex serves the worksharing loops. -/
structure Eu where
  workersInLoop : Nat
  exitFlag : Nat
  workersWfi : Nat
  fn : Nat
  data : Nat
  argc : Nat
  nthreads : Nat
  finiCount : Nat
  deriving DecidableEq, Repr

/-- `~0x1 & ((1 << numcores) - 1)`; the shift reads five bits of its amount. -/
def wakeMask (numcores : Nat) : BitVec 32 := ~~~1#32 &&& (1#32 <<< (numcores % 32) - 1#32)

/-! ## The cores -/

/-- Where core 0 is: in `eu_dispatch_push` (its `wait_worker_wfi`, then the four stores), or in
`eu_run_empty`. -/
inductive MainPc where
  | pushLoad | pushPoll | setFn | setData | setArgc | setNthreads
  | runLoad | resetFini | wakeLoad | wakePoll | wakeSet
  | check | loadFn | loadData | loadArgc | call | running
  | loadInLoop | pollFini | resetNthreads
  deriving DecidableEq, Repr

/-- Core 0: `scratch` of `eu_run_empty`, the count it polls for, and the call it prepares. -/
structure Main where
  pc : MainPc
  scratch : Nat
  target : Nat
  cur : Exec
  deriving DecidableEq, Repr

/-- Where a worker is in `eu_event_loop`. -/
inductive WorkerPc where
  | checkExit | checkNthreads | copyNthreads | loadFn | loadData | loadArgc | call | running
  | addFini | addWfi | wfi | clr | held | subWfi | returned
  deriving DecidableEq, Repr

/-- A worker; `woken` says that its bit has been set since its `wfi` returned last. -/
structure Worker where
  pc : WorkerPc
  nthds : Nat
  cur : Exec
  woken : Bool
  deriving DecidableEq, Repr

/-- The event unit with `n` workers; `round` counts the returns of `eu_run_empty`. -/
structure EventUnit (n : Nat) where
  eu : Eu
  clint : BitVec 32
  main : Main
  workers : Fin n → Worker
  round : Nat
  started : List Exec
  finished : List Exec

/-- Whose step it is. -/
inductive Core (n : Nat) where
  | main
  | worker (i : Fin n)
  deriving DecidableEq

namespace EventUnit

variable {n : Nat}

def noExec : Exec := ⟨0, 0, 0, 0, 0⟩

/-- What `snrt_omp_bootstrap` leaves: every worker has been round its loop once and waits. -/
def init (n : Nat) : EventUnit n where
  eu :=
    { workersInLoop := n, exitFlag := 0, workersWfi := n, fn := 0, data := 0, argc := 0, nthreads := 0,
      finiCount := n }
  clint := 0
  main := ⟨.pushLoad, 0, 0, noExec⟩
  workers := fun _ => ⟨.wfi, 0, noExec, false⟩
  round := 0
  started := []
  finished := []

/-- `cluster_core_idx` of a worker. -/
def coreIdx (i : Fin n) : Nat := i + 1

/-- The tile of a core: `NumCoresTile` cores make a tile. -/
def tileIdx (numCoresTile c : Nat) : Nat := c / numCoresTile

section

variable (numCoresTile : Nat) (tasks : List Task) (s : EventUnit n)

def goto (pc : MainPc) : EventUnit n := { s with main := { s.main with pc := pc } }

def setWorker (i : Fin n) (w : Worker) : EventUnit n := { s with workers := Function.update s.workers i w }

/-- `snrt_int_cluster_set` of the workers' mask. -/
def wakeWorkers : EventUnit n :=
  { s with
    clint := snrtIntClusterSet s.clint (wakeMask (n + 1))
    workers := fun i =>
      { s.workers i with woken := (s.workers i).woken || (wakeMask (n + 1)).getLsbD (coreIdx i) } }

/-- After its own part of the task core 0 waits for the workers, if it has woken them. -/
def afterCall : EventUnit n := s.goto (if 1 < s.main.scratch then .loadInLoop else .resetNthreads)

/-- One step of core 0; nothing once every task has been run. -/
def stepMain : EventUnit n :=
  match s.main.pc, tasks[s.round]? with
  | .pushLoad, none => s
  | .pushLoad, some _ => { s with main := { s.main with pc := .pushPoll, target := s.eu.workersInLoop } }
  | .pushPoll, _ => if s.eu.workersWfi ≠ s.main.target then s else s.goto .setFn
  | .setFn, some t => { s with eu := { s.eu with fn := t.fn } }.goto .setData
  | .setData, some t => { s with eu := { s.eu with data := t.data } }.goto .setArgc
  | .setArgc, some t => { s with eu := { s.eu with argc := t.argc } }.goto .setNthreads
  | .setNthreads, some t => { s with eu := { s.eu with nthreads := t.nthreads } }.goto .runLoad
  | .runLoad, _ =>
    if s.eu.nthreads = 0 then { s with round := s.round + 1 }.goto .pushLoad
    else { s with main := { s.main with pc := .resetFini, scratch := s.eu.nthreads } }
  | .resetFini, _ =>
    { s with eu := { s.eu with finiCount := 0 } }.goto (if 1 < s.main.scratch then .wakeLoad else .check)
  | .wakeLoad, _ => { s with main := { s.main with pc := .wakePoll, target := s.eu.workersInLoop } }
  | .wakePoll, _ => if s.eu.workersWfi ≠ s.main.target then s else s.goto .wakeSet
  | .wakeSet, _ => s.wakeWorkers.goto .check
  | .check, _ => if 0 < s.eu.nthreads then s.goto .loadFn else s.afterCall
  | .loadFn, _ => { s with main := { s.main with pc := .loadData, cur := { noExec with fn := s.eu.fn } } }
  | .loadData, _ =>
    { s with main := { s.main with pc := .loadArgc, cur := { s.main.cur with data := s.eu.data } } }
  | .loadArgc, _ =>
    { s with main := { s.main with pc := .call, cur := { s.main.cur with argc := s.eu.argc } } }
  | .call, _ =>
    let e := { s.main.cur with core := 0, round := s.round }
    { s with started := s.started ++ [e], main := { s.main with pc := .running, cur := e } }
  | .running, _ => { s with finished := s.finished ++ [s.main.cur] }.afterCall
  | .loadInLoop, _ => { s with main := { s.main with pc := .pollFini, target := s.eu.workersInLoop } }
  | .pollFini, _ => if s.eu.finiCount ≠ s.main.target then s else s.goto .resetNthreads
  | .resetNthreads, _ => { s with eu := { s.eu with nthreads := 0 }, round := s.round + 1 }.goto .pushLoad
  | _, none => s

/-- `local_barrier` of tile `t`: every core of it has a barrier request.  Core 0 makes none. -/
def LocalBarrier (t : Nat) : Prop :=
  tileIdx numCoresTile 0 ≠ t ∧ ∀ i : Fin n, tileIdx numCoresTile (coreIdx i) = t → (s.workers i).pc = .held

instance (t : Nat) : Decidable (s.LocalBarrier numCoresTile t) := by
  unfold LocalBarrier
  infer_instance

/-- The tile barrier lets nothing through before the last core of the tile has arrived; then the request of
port 0 goes on to the register, and all of them are answered. -/
def tileBarrier (t : Nat) : EventUnit n :=
  if s.LocalBarrier numCoresTile t then
    { s with
      clint := snrtIntClusterClr s.clint (1#32 <<< (t * numCoresTile))
      workers := fun i =>
        if tileIdx numCoresTile (coreIdx i) = t then { s.workers i with pc := .subWfi } else s.workers i }
  else s

/-- One step of worker `i`. -/
def stepWorker (i : Fin n) : EventUnit n :=
  let w := s.workers i
  match w.pc with
  | .checkExit => s.setWorker i { w with pc := if s.eu.exitFlag ≠ 0 then .returned else .checkNthreads }
  | .checkNthreads =>
    s.setWorker i { w with pc := if coreIdx i < s.eu.nthreads then .copyNthreads else .addFini }
  | .copyNthreads => s.setWorker i { w with pc := .loadFn, nthds := s.eu.nthreads }
  | .loadFn => s.setWorker i { w with pc := .loadData, cur := { noExec with fn := s.eu.fn } }
  | .loadData => s.setWorker i { w with pc := .loadArgc, cur := { w.cur with data := s.eu.data } }
  | .loadArgc => s.setWorker i { w with pc := .call, cur := { w.cur with argc := s.eu.argc } }
  | .call =>
    let e := { w.cur with core := coreIdx i, round := s.round }
    { s with started := s.started ++ [e] }.setWorker i { w with pc := .running, cur := e }
  | .running => { s with finished := s.finished ++ [w.cur] }.setWorker i { w with pc := .addFini }
  | .addFini =>
    { s with eu := { s.eu with finiCount := s.eu.finiCount + 1 } }.setWorker i { w with pc := .addWfi }
  | .addWfi =>
    { s with eu := { s.eu with workersWfi := s.eu.workersWfi + 1 } }.setWorker i { w with pc := .wfi }
  | .wfi =>
    -- `wfi` returns as soon as the bit is set
    if s.clint.getLsbD (coreIdx i) then s.setWorker i { w with pc := .clr, woken := false } else s
  | .clr =>
    -- the store is a request to `HW_BARRIER`
    (s.setWorker i { w with pc := .held }).tileBarrier numCoresTile (tileIdx numCoresTile (coreIdx i))
  | .held => s
  | .subWfi =>
    { s with eu := { s.eu with workersWfi := s.eu.workersWfi - 1 } }.setWorker i { w with pc := .checkExit }
  | .returned => s

def next : Core n → EventUnit n
  | .main => s.stepMain tasks
  | .worker i => s.stepWorker numCoresTile i

def machine (n numCoresTile : Nat) (tasks : List Task) : Machine (EventUnit n) (Core n) :=
  ⟨init n, next numCoresTile tasks⟩

/-- **Fork and join.**  No core runs a task twice, what runs is a core of the task's team with the task's own
function and arguments, and in a round that is over every core of the team has run it to its end. -/
structure ForkJoin : Prop where
  at_most_once : (s.started.map Exec.key).Nodup
  own_task : ∀ e ∈ s.started, ∃ t, tasks[e.round]? = some t ∧ e.core < t.nthreads ∧
    e.fn = t.fn ∧ e.data = t.data ∧ e.argc = t.argc
  finished_started : ∀ e ∈ s.finished, e ∈ s.started
  joined : ∀ r < s.round, ∀ t, tasks[r]? = some t → ∀ c < t.nthreads, ∃ e ∈ s.finished, e.key = (c, r)

/-- `eu_run_empty` has returned for every task. -/
def AllRun : Prop := tasks.length ≤ s.round

/-- `wfi` does not return for a wake-up it has returned for before. -/
def NoStaleReturn : Core n → Prop
  | .main => True
  | .worker i => (s.workers i).pc = .wfi → s.clint.getLsbD (coreIdx i) = true → (s.workers i).woken = true

instance (x : Core n) : Decidable (s.NoStaleReturn x) := by
  cases x <;> simp only [NoStaleReturn] <;> infer_instance

end

end EventUnit

end Omp

end CachePool
