import CachePool.Lib.Machine
import CachePool.Lib.Tally

/-!
# The RLC program: producers, consumers and their lists (`kernel/rlc.c`, `llist.c`, `mm.c`)

Every function that runs under a lock is one step of its core: `pdcp_receive_pkg`, `list_push_back` and
`list_pop_front` on either list, `mm_alloc` and `mm_free`.  Each atomic operation is a step of its own.  A
run is a list of cores, oldest first: the core named takes its next step, and none after it has left its
loop.

* `stepProducer`, `stepConsumer` — one step of a core.
* `received`, `queued`, `popped`, `transmitted`, `appended` — the history of each package.
* `stepProducer_cases`, `stepConsumer_cases` — what a core's step does with the packages.
-/

set_option autoImplicit false

namespace CachePool

namespace Rlc

/-! ## Lists and pages -/

/-- `Node`: the page it lives in, the package whose addresses are `data` and `tgt`, and its size. -/
structure Node where
  page : Nat
  pkg : Nat
  dataSize : Nat
  deriving DecidableEq, Repr

/-- `LinkedList`, its nodes from `head` to `tail`. -/
structure LinkedList where
  nodes : List Node
  sduNum : Int
  sduBytes : Int
  deriving DecidableEq, Repr

/-- `list_init`. -/
def listInit : LinkedList := ⟨[], 0, 0⟩

/-- `list_push_back`. -/
def listPushBack (l : LinkedList) (node : Node) : LinkedList :=
  ⟨l.nodes ++ [node], l.sduNum + 1, l.sduBytes + node.dataSize⟩

/-- `list_pop_front`. -/
def listPopFront (l : LinkedList) : Option Node × LinkedList :=
  match l.nodes with
  | node :: rest => (some node, ⟨rest, l.sduNum - 1, l.sduBytes - node.dataSize⟩)
  | [] => (none, l)

/-- `mm_context_t`; pages are named by their offset in `bulk_buffer`. -/
structure MmContext where
  allocOffset : Nat
  freeList : List Nat
  deriving DecidableEq, Repr

/-- `PAGE_SIZE`: six words of four bytes. -/
def pageSize : Nat := 24

/-- `BUFFER_SIZE`. -/
def bufferSize : Nat := pageSize * 1024

/-- `mm_init`. -/
def mmInit : MmContext := ⟨0, []⟩

/-- `mm_alloc`: a fresh page while there is one, then a recycled one. -/
def mmAlloc (mm : MmContext) : Option Nat × MmContext :=
  if mm.allocOffset + pageSize ≤ bufferSize then
    (some mm.allocOffset, { mm with allocOffset := mm.allocOffset + pageSize })
  else
    match mm.freeList with
    | page :: rest => (some page, { mm with freeList := rest })
    | [] => (none, mm)

/-- `mm_free`. -/
def mmFree (mm : MmContext) : Option Nat → MmContext
  | some page => { mm with freeList := page :: mm.freeList }
  | none => mm

/-! ## The cores -/

/-- Where a producer is. -/
inductive ProducerPc where
  /-- before `pdcp_receive_pkg` -/
  | receive
  /-- before `mm_alloc`, with a package -/
  | alloc (pkg : Nat)
  /-- before `list_push_back` -/
  | push (node : Node)
  /-- out of packages, before the store to `producer_done` -/
  | done
  | left
  deriving DecidableEq, Repr

/-- Where a consumer is. -/
inductive ConsumerPc where
  /-- before `list_pop_front` on the list to send -/
  | pop
  /-- the list was empty; before the load of `producer_done` -/
  | checkDone
  /-- before the fetch-and-add on `vtNext` -/
  | drawSn (node : Node)
  /-- before the copy to the target -/
  | move (node : Node) (sn : Nat)
  | countPdu (node : Node)
  | countByte (node : Node)
  /-- before `list_push_back` on the sent list -/
  | push (node : Node)
  /-- before the test of `sent_list.sduNum` -/
  | checkSent
  /-- before the load of `vtNextAck` -/
  | loadAck
  /-- at the head of the acknowledge loop -/
  | ackLoop (i ackSn : Nat)
  /-- before `mm_free` -/
  | free (i ackSn : Nat) (node : Option Node)
  | left
  deriving DecidableEq, Repr

/-- The package a producer has received and not queued. -/
def ProducerPc.pkg : ProducerPc → Option Nat
  | .alloc pkg => some pkg
  | .push node => some node.pkg
  | _ => none

/-- The producer has found no package. -/
def ProducerPc.past : ProducerPc → Bool
  | .done => true
  | .left => true
  | _ => false

/-- The package a consumer has popped and not transmitted. -/
def ConsumerPc.untransmitted : ConsumerPc → Option Nat
  | .drawSn node => some node.pkg
  | .move node _ => some node.pkg
  | _ => none

/-- The package a consumer has popped and not appended to the sent list. -/
def ConsumerPc.unappended : ConsumerPc → Option Nat
  | .drawSn node => some node.pkg
  | .move node _ => some node.pkg
  | .countPdu node => some node.pkg
  | .countByte node => some node.pkg
  | .push node => some node.pkg
  | _ => none

/-- The packages: `NUM_PKGS` and `pkg_length` of each. -/
structure Config where
  numPkgs : Nat
  pkgLength : Nat → Nat

/-- One core of the program. -/
inductive Core (nc np : Nat) where
  | consumer (i : Fin nc)
  | producer (j : Fin np)
  deriving DecidableEq, Repr

/-- Shared variables, program counters, and the history of the packages. -/
structure Sys (nc np : Nat) where
  consumers : Fin nc → ConsumerPc
  producers : Fin np → ProducerPc
  pdcpPkdPtr : Nat
  producerDone : Bool
  list : LinkedList
  sentList : LinkedList
  vtNext : Nat
  vtNextAck : Nat
  pduWithoutPoll : Nat
  byteWithoutPoll : Nat
  mm : MmContext
  received : List Nat
  queued : List Nat
  popped : List Nat
  /-- each package copied to its target, with the sequence number in its header -/
  transmitted : List (Nat × Nat)
  appended : List Nat

namespace Sys

variable {nc np : Nat}

/-- `rlc_init`, with every core before its loop. -/
def init : Sys nc np where
  consumers := fun _ => .pop
  producers := fun _ => .receive
  pdcpPkdPtr := 0
  producerDone := false
  list := listInit
  sentList := listInit
  vtNext := 0
  vtNextAck := 0
  pduWithoutPoll := 0
  byteWithoutPoll := 0
  mm := mmInit
  received := []
  queued := []
  popped := []
  transmitted := []
  appended := []

variable (cfg : Config) (s : Sys nc np)

def setProducer (j : Fin np) (pc : ProducerPc) : Sys nc np :=
  { s with producers := Function.update s.producers j pc }

def setConsumer (i : Fin nc) (pc : ConsumerPc) : Sys nc np :=
  { s with consumers := Function.update s.consumers i pc }

/-- One step of `producer`. -/
def stepProducer (j : Fin np) : Sys nc np :=
  match s.producers j with
  | .receive =>
    if s.pdcpPkdPtr < cfg.numPkgs then
      { s with pdcpPkdPtr := s.pdcpPkdPtr + 1
               received := s.received ++ [s.pdcpPkdPtr]
        }.setProducer j (.alloc s.pdcpPkdPtr)
    else s.setProducer j .done
  | .alloc pkg =>
    match mmAlloc s.mm with
    | (some page, mm) => { s with mm := mm }.setProducer j (.push ⟨page, pkg, cfg.pkgLength pkg⟩)
    -- out of memory: the same package is tried again
    | (none, _) => s
  | .push node =>
    { s with list := listPushBack s.list node, queued := s.queued ++ [node.pkg] }.setProducer j .receive
  | .done => { s with producerDone := true }.setProducer j .left
  | .left => s

/-- One step of `consumer`. -/
def stepConsumer (i : Fin nc) : Sys nc np :=
  match s.consumers i with
  | .pop =>
    match listPopFront s.list with
    | (some node, l) =>
      { s with list := l, popped := s.popped ++ [node.pkg] }.setConsumer i (.drawSn node)
    | (none, _) => s.setConsumer i .checkDone
  | .checkDone => s.setConsumer i (if s.producerDone then .left else .pop)
  | .drawSn node => { s with vtNext := s.vtNext + 1 }.setConsumer i (.move node s.vtNext)
  | .move node sn =>
    { s with transmitted := s.transmitted ++ [(node.pkg, sn)] }.setConsumer i (.countPdu node)
  | .countPdu node => { s with pduWithoutPoll := s.pduWithoutPoll + 1 }.setConsumer i (.countByte node)
  | .countByte node =>
    { s with byteWithoutPoll := s.byteWithoutPoll + node.dataSize }.setConsumer i (.push node)
  | .push node =>
    { s with sentList := listPushBack s.sentList node, appended := s.appended ++ [node.pkg]
      }.setConsumer i .checkSent
  | .checkSent => s.setConsumer i (if 10000 ≤ s.sentList.sduNum then .loadAck else .pop)
  | .loadAck => s.setConsumer i (.ackLoop s.vtNextAck (s.vtNextAck + 2))
  | .ackLoop k ackSn =>
    if k < ackSn then
      match listPopFront s.sentList with
      | (node, l) => { s with sentList := l }.setConsumer i (.free k ackSn node)
    else { s with vtNextAck := ackSn }.setConsumer i .pop
  | .free k ackSn node =>
    { s with mm := mmFree s.mm (node.map Node.page) }.setConsumer i (.ackLoop (k + 1) ackSn)
  | .left => s

/-- One step of a core. -/
def next : Core nc np → Sys nc np
  | .consumer i => s.stepConsumer i
  | .producer j => s.stepProducer cfg j

def machine (nc np : Nat) (cfg : Config) : Machine (Sys nc np) (Core nc np) := ⟨init, next cfg⟩

variable {cfg s}

/-! ## What a step does -/

/-- What a step of producer `j` does. -/
inductive Produces (cfg : Config) (s : Sys nc np) (j : Fin np) (t : Sys nc np) : Prop where
  | receive (hpc : s.producers j = .receive) (hlt : s.pdcpPkdPtr < cfg.numPkgs)
      (ht : t = { s with pdcpPkdPtr := s.pdcpPkdPtr + 1, received := s.received ++ [s.pdcpPkdPtr]
        }.setProducer j (.alloc s.pdcpPkdPtr))
  | exhaust (hpc : s.producers j = .receive) (hge : cfg.numPkgs ≤ s.pdcpPkdPtr)
      (ht : t = s.setProducer j .done)
  | alloc (pkg page : Nat) (mm : MmContext) (hpc : s.producers j = .alloc pkg)
      (ht : t = { s with mm := mm }.setProducer j (.push ⟨page, pkg, cfg.pkgLength pkg⟩))
  | queue (node : Node) (hpc : s.producers j = .push node)
      (ht : t = { s with list := listPushBack s.list node, queued := s.queued ++ [node.pkg]
        }.setProducer j .receive)
  | finish (hpc : s.producers j = .done) (ht : t = { s with producerDone := true }.setProducer j .left)
  | stay (ht : t = s)

theorem stepProducer_cases (cfg : Config) (s : Sys nc np) (j : Fin np) :
    Produces cfg s j (s.stepProducer cfg j) := by
  unfold stepProducer
  split
  · rename_i hpc
    split
    · rename_i hlt
      exact .receive hpc hlt rfl
    · rename_i hge
      exact .exhaust hpc (Nat.le_of_not_lt hge) rfl
  · rename_i pkg hpc
    split
    · rename_i page mm hmm
      exact .alloc pkg page mm hpc rfl
    · exact .stay rfl
  · rename_i node hpc
    exact .queue node hpc rfl
  · rename_i hpc
    exact .finish hpc rfl
  · exact .stay rfl

/-- A producer leaves alone what consumers do. -/
theorem stepProducer_consumed (cfg : Config) (s : Sys nc np) (j : Fin np) :
    (s.stepProducer cfg j).consumers = s.consumers ∧ (s.stepProducer cfg j).sentList = s.sentList ∧
    (s.stepProducer cfg j).popped = s.popped ∧ (s.stepProducer cfg j).transmitted = s.transmitted ∧
    (s.stepProducer cfg j).vtNext = s.vtNext ∧ (s.stepProducer cfg j).vtNextAck = s.vtNextAck := by
  cases stepProducer_cases cfg s j with
  | receive hpc hlt ht => rw [ht]; exact ⟨rfl, rfl, rfl, rfl, rfl, rfl⟩
  | exhaust hpc hge ht => rw [ht]; exact ⟨rfl, rfl, rfl, rfl, rfl, rfl⟩
  | alloc pkg page mm hpc ht => rw [ht]; exact ⟨rfl, rfl, rfl, rfl, rfl, rfl⟩
  | queue node hpc ht => rw [ht]; exact ⟨rfl, rfl, rfl, rfl, rfl, rfl⟩
  | finish hpc ht => rw [ht]; exact ⟨rfl, rfl, rfl, rfl, rfl, rfl⟩
  | stay ht => rw [ht]; exact ⟨rfl, rfl, rfl, rfl, rfl, rfl⟩

theorem stepProducer_consumers (cfg : Config) (s : Sys nc np) (j : Fin np) :
    (s.stepProducer cfg j).consumers = s.consumers :=
  (stepProducer_consumed cfg s j).1

/-- What a step of consumer `i` does with the packages. -/
inductive Consumes (s : Sys nc np) (i : Fin nc) (t : Sys nc np) : Prop where
  | pop (node : Node) (hpc : s.consumers i = .pop)
      (ht : t.consumers = Function.update s.consumers i (.drawSn node))
      (hlist : s.list.nodes = node :: t.list.nodes) (hpopped : t.popped = s.popped ++ [node.pkg])
      (htransmitted : t.transmitted = s.transmitted) (happended : t.appended = s.appended)
  | transmit (node : Node) (sn : Nat) (hpc : s.consumers i = .move node sn)
      (ht : t.consumers = Function.update s.consumers i (.countPdu node))
      (hlist : t.list = s.list) (hpopped : t.popped = s.popped)
      (htransmitted : t.transmitted = s.transmitted ++ [(node.pkg, sn)])
      (happended : t.appended = s.appended)
  | append (node : Node) (hpc : s.consumers i = .push node)
      (ht : t.consumers = Function.update s.consumers i .checkSent)
      (hlist : t.list = s.list) (hpopped : t.popped = s.popped)
      (htransmitted : t.transmitted = s.transmitted) (happended : t.appended = s.appended ++ [node.pkg])
  | leave (hpc : s.consumers i = .checkDone) (hdone : s.producerDone = true)
      (ht : t = s.setConsumer i .left)
  | work (pc : ConsumerPc) (hunt : pc.untransmitted = (s.consumers i).untransmitted)
      (huna : pc.unappended = (s.consumers i).unappended) (hpc : pc ≠ .left)
      (ht : t.consumers = Function.update s.consumers i pc) (hlist : t.list = s.list)
      (hpopped : t.popped = s.popped) (htransmitted : t.transmitted = s.transmitted)
      (happended : t.appended = s.appended)
  | stay (hpc : s.consumers i = .left) (ht : t = s)

theorem stepConsumer_cases (s : Sys nc np) (i : Fin nc) : Consumes s i (s.stepConsumer i) := by
  unfold stepConsumer
  split
  · rename_i hpc
    split
    · rename_i node l hl
      unfold listPopFront at hl
      split at hl
      · rename_i node' rest hnodes
        cases hl
        exact .pop node hpc rfl hnodes rfl rfl rfl
      · cases hl
    · exact .work .checkDone (by rw [hpc]; rfl) (by rw [hpc]; rfl) (fun h => nomatch h) rfl rfl rfl rfl rfl
  · rename_i hpc
    cases hdone : s.producerDone
    · exact .work .pop (by rw [hpc]; rfl) (by rw [hpc]; rfl) (fun h => nomatch h) rfl rfl rfl rfl rfl
    · exact .leave hpc hdone rfl
  · rename_i node hpc
    exact .work (.move node s.vtNext) (by rw [hpc]; rfl) (by rw [hpc]; rfl) (fun h => nomatch h)
      rfl rfl rfl rfl rfl
  · rename_i node sn hpc
    exact .transmit node sn hpc rfl rfl rfl rfl rfl
  · rename_i node hpc
    exact .work (.countByte node) (by rw [hpc]; rfl) (by rw [hpc]; rfl) (fun h => nomatch h)
      rfl rfl rfl rfl rfl
  · rename_i node hpc
    exact .work (.push node) (by rw [hpc]; rfl) (by rw [hpc]; rfl) (fun h => nomatch h)
      rfl rfl rfl rfl rfl
  · rename_i node hpc
    exact .append node hpc rfl rfl rfl rfl rfl
  · rename_i hpc
    split
    · exact .work .loadAck (by rw [hpc]; rfl) (by rw [hpc]; rfl) (fun h => nomatch h) rfl rfl rfl rfl rfl
    · exact .work .pop (by rw [hpc]; rfl) (by rw [hpc]; rfl) (fun h => nomatch h) rfl rfl rfl rfl rfl
  · rename_i hpc
    exact .work (.ackLoop s.vtNextAck (s.vtNextAck + 2)) (by rw [hpc]; rfl) (by rw [hpc]; rfl)
      (fun h => nomatch h) rfl rfl rfl rfl rfl
  · rename_i k ackSn hpc
    split
    · exact .work (.free k ackSn (listPopFront s.sentList).1) (by rw [hpc]; rfl) (by rw [hpc]; rfl)
        (fun h => nomatch h) rfl rfl rfl rfl rfl
    · exact .work .pop (by rw [hpc]; rfl) (by rw [hpc]; rfl) (fun h => nomatch h) rfl rfl rfl rfl rfl
  · rename_i k ackSn node hpc
    exact .work (.ackLoop (k + 1) ackSn) (by rw [hpc]; rfl) (by rw [hpc]; rfl) (fun h => nomatch h)
      rfl rfl rfl rfl rfl
  · rename_i hpc
    exact .stay hpc rfl

/-- A consumer that has left its loop takes no step. -/
theorem stepConsumer_of_left {i : Fin nc} (h : s.consumers i = .left) : s.stepConsumer i = s := by
  unfold stepConsumer
  rw [h]

/-- A consumer does not touch what producers have done with the packages. -/
theorem stepConsumer_produced (s : Sys nc np) (i : Fin nc) :
    (s.stepConsumer i).producers = s.producers ∧
    (s.stepConsumer i).pdcpPkdPtr = s.pdcpPkdPtr ∧ (s.stepConsumer i).producerDone = s.producerDone ∧
    (s.stepConsumer i).received = s.received ∧ (s.stepConsumer i).queued = s.queued := by
  unfold stepConsumer
  split
  · split <;> exact ⟨rfl, rfl, rfl, rfl, rfl⟩
  · exact ⟨rfl, rfl, rfl, rfl, rfl⟩
  · exact ⟨rfl, rfl, rfl, rfl, rfl⟩
  · exact ⟨rfl, rfl, rfl, rfl, rfl⟩
  · exact ⟨rfl, rfl, rfl, rfl, rfl⟩
  · exact ⟨rfl, rfl, rfl, rfl, rfl⟩
  · exact ⟨rfl, rfl, rfl, rfl, rfl⟩
  · exact ⟨rfl, rfl, rfl, rfl, rfl⟩
  · exact ⟨rfl, rfl, rfl, rfl, rfl⟩
  · split <;> exact ⟨rfl, rfl, rfl, rfl, rfl⟩
  · exact ⟨rfl, rfl, rfl, rfl, rfl⟩
  · exact ⟨rfl, rfl, rfl, rfl, rfl⟩

end Sys

end Rlc

end CachePool
