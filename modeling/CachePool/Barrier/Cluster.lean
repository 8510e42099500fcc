import CachePool.Lib.Machine

/-!
# The cluster barrier (`cachepool_cluster_barrier`)

One AXI port a tile.  A read of the barrier register is absorbed and answered by the barrier itself: at
once for a tile outside the participation mask, once all tiles of the mask wait for one inside it.  All
other traffic passes.

* `ClusterBarrier.next` — the next registers; `barrier_d` follows `barrier_i` in every cycle.
* `released_of_takeBarrier` — a completed barrier releases the tiles of its mask.
* `mask_stable_iff` — the mask is stable over every such stretch exactly when `barrier_i` shows the mask in
  force in every cycle that leaves a tile waiting.
-/

set_option autoImplicit false

namespace CachePool

namespace Barrier

/-- `barrier_state_e`. -/
inductive ClusterState where
  | Idle
  | Wait
  | Take
  | Global
  deriving DecidableEq, Repr

/-- `info_t`: what the response to a barrier request needs of it. -/
structure Info where
  id : Nat
  user : Nat
  deriving DecidableEq, Repr

/-- The read address channel. -/
structure ArChan where
  addr : BitVec 32
  id : Nat
  user : Nat
  deriving DecidableEq, Repr

/-- The read data channel. -/
structure RChan where
  id : Nat
  user : Nat
  data : BitVec 32
  last : Bool
  deriving DecidableEq, Repr

/-- The registers, `n` being `NrPorts`. -/
structure ClusterBarrier (n : Nat) where
  stateQ : Fin n → ClusterState
  barrierQ : Fin n → Bool
  infoQ : Fin n → Info

/-- What the barrier reads of its ports in one cycle: `axi_slv_req_i` (`ar` when valid, `r_ready`),
`axi_mst_rsp_i` (`ar_ready`, `r` when valid) and `barrier_i`. -/
structure ClusterIn (n : Nat) where
  ar : Fin n → Option ArChan
  rReady : Fin n → Bool
  arReady : Fin n → Bool
  r : Fin n → Option RChan
  barrierI : Fin n → Bool

namespace ClusterBarrier

variable {n : Nat} (barrierAddr : BitVec 32)

def reset (n : Nat) : ClusterBarrier n := ⟨fun _ => .Idle, fun _ => false, fun _ => ⟨0, 0⟩⟩

/-- `is_barrier`, as the loop leaves it. -/
def isBarrier (s : ClusterBarrier n) (i : Fin n) : Bool := s.stateQ i = .Wait

/-- `take_barrier`: the waiting tiles are those of the mask. -/
def takeBarrier (s : ClusterBarrier n) : Bool := decide (∀ i, s.barrierQ i = s.isBarrier i)

/-- `barrier_d`.  `is_barrier` has just been cleared where the block reads it, so that the test always
succeeds. -/
def barrierD (s : ClusterBarrier n) (x : ClusterIn n) : Fin n → Bool :=
  let isBarrier : Fin n → Bool := fun _ => false
  if ∀ i, isBarrier i = false then x.barrierI else s.barrierQ

/-- A barrier request at port `i`. -/
def barrierReq (x : ClusterIn n) (i : Fin n) : Option ArChan :=
  (x.ar i).filter fun ar => ar.addr = barrierAddr

/-- The answer of the barrier at port `i`; a response in transition goes first. -/
def answers (s : ClusterBarrier n) (x : ClusterIn n) (i : Fin n) : Bool :=
  s.stateQ i = .Take && (x.r i).isNone

/-- `state_d[i]`. -/
def stateD (s : ClusterBarrier n) (x : ClusterIn n) (i : Fin n) : ClusterState :=
  match s.stateQ i with
  | .Idle =>
    match barrierReq barrierAddr x i with
    | some _ => if s.barrierQ i then .Wait else .Take
    | none => .Idle
  | .Wait => if s.takeBarrier then .Take else .Wait
  | .Take => if s.answers x i && x.rReady i then .Idle else .Take
  | .Global => .Idle

/-- `info_d[i]`. -/
def infoD (s : ClusterBarrier n) (x : ClusterIn n) (i : Fin n) : Info :=
  match s.stateQ i with
  | .Idle =>
    match barrierReq barrierAddr x i with
    | some ar => ⟨ar.id, ar.user⟩
    | none => s.infoQ i
  | .Take => if s.answers x i && x.rReady i then ⟨0, 0⟩ else s.infoQ i
  | _ => s.infoQ i

/-- `axi_mst_req_o[i].ar`, when valid. -/
def arO (s : ClusterBarrier n) (x : ClusterIn n) (i : Fin n) : Option ArChan :=
  match s.stateQ i, barrierReq barrierAddr x i with
  | .Idle, some _ => none
  | _, _ => x.ar i

/-- `axi_slv_rsp_o[i].ar_ready`. -/
def arReadyO (s : ClusterBarrier n) (x : ClusterIn n) (i : Fin n) : Bool :=
  match s.stateQ i, barrierReq barrierAddr x i with
  | .Idle, some _ => true
  | _, _ => x.arReady i

/-- `axi_slv_rsp_o[i].r`, when valid. -/
def rO (s : ClusterBarrier n) (x : ClusterIn n) (i : Fin n) : Option RChan :=
  if s.answers x i then some ⟨(s.infoQ i).id, (s.infoQ i).user, 0, true⟩ else x.r i

def next (s : ClusterBarrier n) (x : ClusterIn n) : ClusterBarrier n where
  stateQ := s.stateD barrierAddr x
  barrierQ := s.barrierD x
  infoQ := s.infoD barrierAddr x

def machine (n : Nat) (barrierAddr : BitVec 32) : Machine (ClusterBarrier n) (ClusterIn n) where
  init := reset n
  next := next barrierAddr

/-! ## The mask while tiles wait -/

/-- Some tile waits. -/
def waiting (s : ClusterBarrier n) : Bool := decide (∃ i, s.stateQ i = .Wait)

/-- The cycle leaves a tile waiting: one waits and the barrier is not complete, or a tile of the mask makes
its request. -/
def leavesWaiting (s : ClusterBarrier n) (x : ClusterIn n) : Bool :=
  decide (∃ i, (s.stateQ i = .Wait ∧ s.takeBarrier = false) ∨
    (s.stateQ i = .Idle ∧ (barrierReq barrierAddr x i).isSome = true ∧ s.barrierQ i = true))

/-- A cycle that leaves a tile waiting shows the mask in force at `barrier_i`. -/
def MaskHeld (s : ClusterBarrier n) (x : ClusterIn n) : Prop :=
  s.leavesWaiting barrierAddr x = true → x.barrierI = s.barrierQ

instance (s : ClusterBarrier n) (x : ClusterIn n) : Decidable (s.MaskHeld barrierAddr x) := by
  unfold MaskHeld
  exact inferInstance

/-- Some tile waits after each cycle of `mid`: the first cycle may be the one in which the first of them
makes its request. -/
def WaitedThrough (pre mid : List (ClusterIn n)) : Prop :=
  (machine n barrierAddr).Through (fun s x => (s.next barrierAddr x).waiting = true) pre mid

/-- The mask does not change while a tile waits. -/
def MaskStable (xs : List (ClusterIn n)) : Prop :=
  ∀ pre mid post, xs = pre ++ mid ++ post → WaitedThrough barrierAddr pre mid →
    ((machine n barrierAddr).run (pre ++ mid)).barrierQ = ((machine n barrierAddr).run pre).barrierQ

variable {barrierAddr}

theorem next_barrierQ (s : ClusterBarrier n) (x : ClusterIn n) :
    (s.next barrierAddr x).barrierQ = x.barrierI := by
  show s.barrierD x = x.barrierI
  rw [barrierD, if_pos (fun _ => rfl)]

theorem next_waiting_iff (s : ClusterBarrier n) (x : ClusterIn n) :
    (s.next barrierAddr x).waiting = true ↔ s.leavesWaiting barrierAddr x = true := by
  rw [waiting, leavesWaiting, decide_eq_true_eq, decide_eq_true_eq]
  apply exists_congr
  intro i
  show s.stateD barrierAddr x i = .Wait ↔ _
  unfold stateD
  cases hs : s.stateQ i with
  | Idle => cases hr : barrierReq barrierAddr x i <;> cases hb : s.barrierQ i <;> simp
  | Wait => cases ht : s.takeBarrier <;> simp
  | Take => cases ha : s.answers x i && x.rReady i <;> simp
  | Global => simp

/-- **Stability of the mask, cycle by cycle.** -/
theorem maskStable_iff (xs : List (ClusterIn n)) :
    MaskStable barrierAddr xs ↔ (machine n barrierAddr).Meets (MaskHeld barrierAddr) xs := by
  have hstretch := Machine.stable_iff (M := machine n barrierAddr) (fun s => s.barrierQ)
    (fun s x => (s.next barrierAddr x).waiting = true) xs
  refine hstretch.trans ?_
  constructor
  · intro h pre x post heq hwait
    have hmask := h pre x post heq ((next_waiting_iff _ x).mpr hwait)
    exact (next_barrierQ _ x).symm.trans hmask
  · intro h pre x post heq hwait
    exact (next_barrierQ _ x).trans (h pre x post heq ((next_waiting_iff _ x).mp hwait))

/-- The tiles released together are those of the mask. -/
theorem released_of_takeBarrier {s : ClusterBarrier n} (ht : s.takeBarrier = true)
    (x : ClusterIn n) (i : Fin n) :
    s.barrierQ i = true ↔ s.stateQ i = .Wait ∧ (s.next barrierAddr x).stateQ i = .Take := by
  have hi := of_decide_eq_true ht i
  rw [hi, isBarrier, decide_eq_true_eq]
  constructor
  · intro hw
    refine ⟨hw, ?_⟩
    show s.stateD barrierAddr x i = .Take
    rw [stateD, hw]
    exact if_pos ht
  · exact fun h => h.1

/-- **When the mask is stable while tiles wait.**  Over every stretch of a run the mask is the one in force
when the first tile of the stretch made its request exactly when each cycle that leaves a tile waiting has
the mask in force at `barrier_i`.  Then the tiles that a completed barrier has awaited and releases are
those of the mask at the start of the stretch. -/
theorem mask_stable_iff (n : Nat) (barrierAddr : BitVec 32) (xs : List (ClusterIn n)) :
    (MaskStable barrierAddr xs ↔ (machine n barrierAddr).Meets (MaskHeld barrierAddr) xs) ∧
    ((machine n barrierAddr).Meets (MaskHeld barrierAddr) xs →
      ∀ pre mid post, xs = pre ++ mid ++ post → WaitedThrough barrierAddr pre mid →
        ((machine n barrierAddr).run (pre ++ mid)).takeBarrier = true →
        ∀ (x : ClusterIn n) (i : Fin n), ((machine n barrierAddr).run pre).barrierQ i = true ↔
          ((machine n barrierAddr).run (pre ++ mid)).stateQ i = .Wait ∧
          ((machine n barrierAddr).run (pre ++ mid ++ [x])).stateQ i = .Take) := by
  refine ⟨maskStable_iff xs, ?_⟩
  intro h pre mid post heq hw ht x i
  have hmask := (maskStable_iff xs).mpr h pre mid post heq hw
  have hrun : (machine n barrierAddr).run (pre ++ mid ++ [x]) =
      ((machine n barrierAddr).run (pre ++ mid)).next barrierAddr x := Machine.run_concat _ _ x
  rw [hrun, ← hmask]
  exact released_of_takeBarrier ht x i

/-- Tiles 0 and 1 take part; tile 0 waits when the mask is cut to it alone: it is released although tile 1
never came. -/
theorem mask_changes_while_waiting :
    let quiet (mask : Fin 2 → Bool) : ClusterIn 2 :=
      ⟨fun _ => none, fun _ => true, fun _ => true, fun _ => none, mask⟩
    let both : Fin 2 → Bool := fun _ => true
    let first : Fin 2 → Bool := fun i => i = 0
    let request : ClusterIn 2 :=
      { quiet both with ar := fun i => if i = 0 then some ⟨0x40#32, 1, 0⟩ else none }
    let M := machine 2 0x40#32
    let pre := [quiet both, request]
    ¬ MaskStable 0x40#32 (pre ++ [quiet first]) ∧
    (M.run pre).barrierQ 1 = true ∧ (M.run (pre ++ [quiet first, quiet first])).stateQ 0 = .Take ∧
    (M.run (pre ++ [quiet first, quiet first])).stateQ 1 = .Idle := by
  intro quiet both first request M pre
  refine ⟨?_, by decide, by decide, by decide⟩
  intro h
  exact absurd ((maskStable_iff _).mp h) (by decide)

end ClusterBarrier

end Barrier

end CachePool
