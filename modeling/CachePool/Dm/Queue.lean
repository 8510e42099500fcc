import CachePool.Lib.Machine
import CachePool.Lib.Tally
import CachePool.Interrupt

/-!
# The task queue of the data mover (`dm.c`)

Harts call `dm_memcpy_async` and `dm_memcpy2d_async`; the DM core takes the tasks out of the queue in
`dm_main` and starts them on the DMA.  A step is one access to the shared struct.  `stat_q` stays 0: the calls
that write it are not among these.

* `Call`, `Call.stores` — the two functions: their arguments, and their stores to the queue entry in program
  order.
* `loads` — the loads `dm_main` makes of an entry that is `twod` or not.
* `ProducerPc`, `DmPc`, `stepProducer`, `stepDm` — the calls, and the loop of `dm_main`; `dm_start` is the two
  accesses of `wake_dm`.
* `LocalBarrier` — the tile barrier, which holds the store of `snrt_int_cluster_clr`: the store goes to
  `HW_BARRIER`, so the DM core goes on when the rest of its tile has arrived there as well.
* `InOrder` — what the queue is for: tasks start in the order they were queued, with their own arguments.
* `RoomAtLock` — a producer that takes the mutex finds the queue with room.
-/

set_option autoImplicit false

namespace CachePool

namespace Dm

/-- `DM_TASK_QUEUE_SIZE`. -/
def dmTaskQueueSize : Nat := 4

/-- `dm_task_t`. -/
structure DmTask where
  src : Nat
  dst : Nat
  size : Nat
  sstrd : Nat
  dstrd : Nat
  nreps : Nat
  cfg : Nat
  twod : Nat
  deriving DecidableEq, Repr

/-- A transfer as it is started on the DMA. -/
inductive Transfer where
  | startOned (src dst size cfg : Nat)
  | startTwod (src dst size sstrd dstrd nreps cfg : Nat)
  deriving DecidableEq, Repr

/-- What `dm_main` starts for an entry. -/
def DmTask.transfer (t : DmTask) : Transfer :=
  if t.twod ≠ 0 then .startTwod t.src t.dst t.size t.sstrd t.dstrd t.nreps t.cfg
  else .startOned t.src t.dst t.size t.cfg

/-- A call of `dm_memcpy_async` or of `dm_memcpy2d_async`. -/
inductive Call where
  | memcpyAsync (dest src n : Nat)
  | memcpy2dAsync (src dst size sstrd dstrd nreps cfg : Nat)
  deriving DecidableEq, Repr

/-- The transfer that was asked for. -/
def Call.transfer : Call → Transfer
  | memcpyAsync dest src n => .startOned src dest n 0
  | memcpy2dAsync src dst size sstrd dstrd nreps cfg => .startTwod src dst size sstrd dstrd nreps cfg

/-- The stores to the entry. -/
def Call.stores : Call → List (DmTask → DmTask)
  | memcpyAsync dest src n =>
    [fun t => { t with src := src }, fun t => { t with dst := dest }, fun t => { t with size := n },
     fun t => { t with twod := 0 }, fun t => { t with cfg := 0 }]
  | memcpy2dAsync src dst size sstrd dstrd nreps cfg =>
    [fun t => { t with src := src }, fun t => { t with dst := dst }, fun t => { t with size := size },
     fun t => { t with sstrd := sstrd }, fun t => { t with dstrd := dstrd },
     fun t => { t with nreps := nreps }, fun t => { t with twod := 1 }, fun t => { t with cfg := cfg }]

/-- The loads of the entry `e` into the arguments of the start, once `twod` has been read. -/
def loads (twod : Nat) : List (DmTask → DmTask → DmTask) :=
  if twod ≠ 0 then
    [fun e t => { t with src := e.src }, fun e t => { t with dst := e.dst },
     fun e t => { t with size := e.size }, fun e t => { t with sstrd := e.sstrd },
     fun e t => { t with dstrd := e.dstrd }, fun e t => { t with nreps := e.nreps },
     fun e t => { t with cfg := e.cfg }]
  else
    [fun e t => { t with src := e.src }, fun e t => { t with dst := e.dst },
     fun e t => { t with size := e.size }, fun e t => { t with cfg := e.cfg }]

/-- Where a producer is: `store k` is before store `k`, and before the bump after the last one. -/
inductive ProducerPc where
  | idle | poll | lock | loadFront | store (k : Nat) | bumpFront | release
  deriving DecidableEq, Repr

/-- A producer: its call, and the entry it has taken from `queue_front`. -/
structure Producer where
  pc : ProducerPc
  call : Call
  t : Nat
  deriving DecidableEq, Repr

/-- Where the DM core is: `load k` is before load `k`, and before the start after the last one. -/
inductive DmPc where
  | checkFill | loadBack | loadTwod | load (k : Nat) | bumpBack | subFill
  | checkSleep | addWfi | wfi | clr | held | subWfi
  deriving DecidableEq, Repr

/-- The DM core: the entry it is at and what it has loaded of it. -/
structure DmCore where
  pc : DmPc
  t : Nat
  task : DmTask
  deriving DecidableEq, Repr

/-- `dm_t`, the harts, those past the poll of `wake_dm`, and what has been queued and started so far. -/
structure Sys (n : Nat) where
  queue : Nat → DmTask
  queueBack : Nat
  queueFront : Nat
  queueFill : Nat
  mutex : Bool
  dmWfi : Nat
  clint : BitVec 32
  waking : Nat
  dm : DmCore
  producers : Fin n → Producer
  queued : List Transfer
  started : List Transfer

/-- What happens next: a step of the DM core, of a producer, of a hart in `wake_dm`, a new call, or the
arrival of the last of the other cores of the DM core's tile at the tile barrier. -/
inductive Step (n : Nat) where
  | dm
  | producer (i : Fin n)
  | call (i : Fin n) (c : Call)
  | wakePoll
  | wakeSet
  | arrive
  deriving DecidableEq

def noTask : DmTask := ⟨0, 0, 0, 0, 0, 0, 0, 0⟩

namespace Sys

variable {n : Nat}

/-- What `dm_init` leaves. -/
def init (n : Nat) : Sys n where
  queue := fun _ => noTask
  queueBack := 0
  queueFront := 0
  queueFill := 0
  mutex := false
  dmWfi := 0
  clint := 0
  waking := 0
  dm := ⟨.checkFill, 0, noTask⟩
  producers := fun _ => ⟨.idle, .memcpyAsync 0 0 0, 0⟩
  queued := []
  started := []

variable (dmIdx : Fin 32) (dmTile : Finset (Fin n)) (s : Sys n)

def gotoDm (pc : DmPc) : Sys n := { s with dm := { s.dm with pc := pc } }

def setProducer (i : Fin n) (p : Producer) : Sys n :=
  { s with producers := Function.update s.producers i p }

/-- One step of `dm_main`. -/
def stepDm : Sys n :=
  match s.dm.pc with
  | .checkFill => s.gotoDm (if s.queueFill ≠ 0 then .loadBack else .checkSleep)
  -- the DMA is ready
  | .loadBack => { s with dm := { s.dm with pc := .loadTwod, t := s.queueBack } }
  | .loadTwod =>
    { s with dm := { s.dm with pc := .load 0, task := { noTask with twod := (s.queue s.dm.t).twod } } }
  | .load k =>
    match (loads s.dm.task.twod)[k]? with
    | some f => { s with dm := { s.dm with pc := .load (k + 1), task := f (s.queue s.dm.t) s.dm.task } }
    | none => { s with started := s.started ++ [s.dm.task.transfer] }.gotoDm .bumpBack
  | .bumpBack => { s with queueBack := (s.queueBack + 1) % dmTaskQueueSize }.gotoDm .subFill
  | .subFill => { s with queueFill := s.queueFill - 1 }.gotoDm .checkSleep
  | .checkSleep => s.gotoDm (if s.queueFill = 0 then .addWfi else .checkFill)
  | .addWfi => { s with dmWfi := s.dmWfi + 1 }.gotoDm .wfi
  | .wfi => if s.clint.getLsbD dmIdx then s.gotoDm .clr else s
  -- the store is a request to `HW_BARRIER`
  | .clr => s.gotoDm .held
  | .held => s
  | .subWfi => { s with dmWfi := s.dmWfi - 1 }.gotoDm .checkFill

/-- One step of a producer. -/
def stepProducer (i : Fin n) : Sys n :=
  let p := s.producers i
  match p.pc with
  | .idle => s
  | .poll => if s.queueFill ≥ dmTaskQueueSize then s else s.setProducer i { p with pc := .lock }
  | .lock => if s.mutex then s else { s with mutex := true }.setProducer i { p with pc := .loadFront }
  | .loadFront => s.setProducer i { p with pc := .store 0, t := s.queueFront }
  | .store k =>
    match p.call.stores[k]? with
    | some f =>
      { s with queue := Function.update s.queue p.t (f (s.queue p.t)) }.setProducer i
        { p with pc := .store (k + 1) }
    | none =>
      { s with queueFill := s.queueFill + 1, queued := s.queued ++ [p.call.transfer] }.setProducer i
        { p with pc := .bumpFront }
  | .bumpFront =>
    { s with queueFront := (s.queueFront + 1) % dmTaskQueueSize }.setProducer i { p with pc := .release }
  | .release => { s with mutex := false }.setProducer i { p with pc := .idle }

/-- `local_barrier` of the DM core's tile: the store waits there, and no producer of the tile, which are
those of `dmTile`, is in a call, so that all of them can be at the barrier. -/
def LocalBarrier : Prop := s.dm.pc = .held ∧ ∀ i ∈ dmTile, (s.producers i).pc = .idle

instance : Decidable (s.LocalBarrier dmTile) := by
  unfold LocalBarrier
  infer_instance

def next : Step n → Sys n
  | .dm => s.stepDm dmIdx
  | .producer i => s.stepProducer i
  | .call i c =>
    if (s.producers i).pc = .idle then s.setProducer i { s.producers i with pc := .poll, call := c } else s
  | .wakePoll => if s.dmWfi = 0 then s else { s with waking := s.waking + 1 }
  | .wakeSet =>
    if s.waking = 0 then s
    else { s with waking := s.waking - 1, clint := snrtIntClusterSet s.clint (1#32 <<< dmIdx.val) }
  | .arrive =>
    if s.LocalBarrier dmTile then
      { s with clint := snrtIntClusterClr s.clint (1#32 <<< dmIdx.val) }.gotoDm .subWfi
    else s

def machine (n : Nat) (dmIdx : Fin 32) (dmTile : Finset (Fin n)) : Machine (Sys n) (Step n) :=
  ⟨init n, next dmIdx dmTile⟩

/-- **In order.**  The queue holds no more than it has entries, and what has been started is what was asked
for, in the order it was queued, from the first on. -/
structure InOrder : Prop where
  within_capacity : s.queueFill ≤ dmTaskQueueSize
  holds : s.queued.length ≤ s.started.length + s.queueFill
  started_in_order : s.started <+: s.queued

/-- The producer that takes the mutex finds the queue with room, as it did in its poll. -/
def RoomAtLock : Step n → Prop
  | .producer i => (s.producers i).pc = .lock → s.mutex = false → s.queueFill < dmTaskQueueSize
  | _ => True

instance (x : Step n) : Decidable (s.RoomAtLock x) := by
  cases x <;> simp only [RoomAtLock] <;> infer_instance

end Sys

end Dm

end CachePool
