import CachePool.Barrier.Cluster
import CachePool.Barrier.Transparent

/-!
# The two levels of the barrier together

Tile barriers below the cluster barrier.  A barrier request sent on port 0 of a tile travels, for any time,
to the tile's port of the cluster barrier; its answer travels back.  All other traffic of a tile is taken
and answered arbitrarily.

* `TileSys.CoreOk` — what the cores keep to: nothing outstanding on entry, nothing requested until the
  cycle after the barrier response.
* `undisturbed_of_coreOk` — then the tile barrier is not disturbed.
* `inPhase_next` — one cycle keeps tiles, path and cluster barrier in phase.
* `two_level_barrier_safe` — no core is answered before those it has to wait for have asked.
-/

set_option autoImplicit false

namespace CachePool

namespace Barrier

namespace TileSys

variable {n : Nat} [NeZero n] {α β : Type}

/-- A core has nothing outstanding on its port when it requests the barrier, and requests nothing while
the barrier response is offered to it. -/
def CoreOk (barrierAddr : BitVec 32) (s : TileSys n α β) (x : TileIn n α β) : Prop :=
  (∀ i, s.regs.stateQ i = .Idle → TileBarrier.isBarrierReq barrierAddr (s.inReq x i) = true →
    s.pending i = []) ∧
  (∀ i, s.regs.stateQ i = .Take → (s.inReq x i).qValid = false)

instance (barrierAddr : BitVec 32) (s : TileSys n α β) (x : TileIn n α β) :
    Decidable (s.CoreOk barrierAddr x) := by
  have : ∀ i, Decidable (s.pending i = []) := fun i => decidable_of_iff _ List.isEmpty_iff
  unfold CoreOk
  exact inferInstance

/-- In the barrier nothing is outstanding on a port, but for the tile's own request on port 0. -/
def Alone (s : TileSys n α β) : Prop :=
  ∀ i, s.regs.stateQ i = .Wait ∨ (i ≠ 0 ∧ (s.regs.stateQ i = .Global ∨ s.regs.stateQ i = .Take)) →
    s.pending i = []

variable {barrierAddr : BitVec 32} {s : TileSys n α β} {x : TileIn n α β} {i : Fin n}

theorem newEntry_of_coreOk (hC : s.CoreOk barrierAddr x) (hs : s.regs.stateQ i = .Take) :
    s.newEntry barrierAddr x i = none := by
  simp [newEntry, TileBarrier.outReqO, TileBarrier.outQValid, hs, hC.2 i hs]

/-- Barrier requests owed an answer on port 0. -/
theorem owed_cases (hT : Transparent barrierAddr s) :
    (s.pending 0).countP (·.isBarrier barrierAddr) ≤ 1 ∧
    (s.regs.stateQ 0 = .Idle ∨ s.regs.stateQ 0 = .Wait →
      (s.pending 0).countP (·.isBarrier barrierAddr) = 0) := by
  have hzero : s.regs.stateQ 0 = .Idle ∨ s.regs.stateQ 0 = .Wait →
      (s.pending 0).countP (·.isBarrier barrierAddr) = 0 := by
    intro hs
    rw [List.countP_eq_zero]
    intro e he
    rw [hT.ordinary 0 (Or.inr hs) e he]
    exact Bool.false_ne_true
  refine ⟨?_, hzero⟩
  cases hs : s.regs.stateQ 0 with
  | Idle => rw [hzero (Or.inl hs)]; omega
  | Wait => rw [hzero (Or.inr hs)]; omega
  | Global =>
    obtain ⟨e, he, hbar⟩ := hT.global hs
    rw [he, List.countP_singleton, hbar]
    rfl
  | Take =>
    rcases hT.take hs with hnil | ⟨e, he, hbar, _⟩
    · rw [hnil]
      exact Nat.zero_le _
    · rw [he, List.countP_singleton, hbar]
      rfl

end TileSys

/-- The tiles and the cluster barrier; for each tile the barrier requests on their way up, those that went
past the cluster barrier to the peripheral, and the answers on their way down; and, counted by the
observer, the requests the cluster barrier has absorbed and answered. -/
structure TwoLevel (T n : Nat) (α β : Type) where
  tiles : Fin T → TileSys n α β
  cluster : ClusterBarrier T
  up : Fin T → Nat
  csr : Fin T → Nat
  down : Fin T → Nat
  absorbed : Fin T → Nat
  answered : Fin T → Nat

/-- One cycle: the inputs of each tile; whether the path shows a barrier request at the cluster barrier,
and under which identifier and user, or what other read it shows; `r_ready` of the path; the peripheral's
`ar_ready` and `r`, and whether it answers a barrier request. -/
structure TwoLevelIn (T n : Nat) (α β : Type) where
  tile : Fin T → TileIn n α β
  present : Fin T → Bool
  arId : Fin T → Nat
  arUser : Fin T → Nat
  other : Fin T → Option ArChan
  rReady : Fin T → Bool
  arReady : Fin T → Bool
  r : Fin T → Option RChan
  csrAnswers : Fin T → Bool

namespace TwoLevel

variable {T n : Nat} [NeZero n] {α β : Type} (barrierAddr : BitVec 32)
  (mask : Fin T → Bool)

/-- All idle, the mask in force. -/
def reset (mask : Fin T → Bool) (n : Nat) (α β : Type) : TwoLevel T n α β where
  tiles := fun _ => TileSys.reset n α β
  cluster := { ClusterBarrier.reset T with barrierQ := mask }
  up := fun _ => 0
  csr := fun _ => 0
  down := fun _ => 0
  absorbed := fun _ => 0
  answered := fun _ => 0

/-- Barrier requests that leave the tile in this cycle. -/
def sent (s : TwoLevel T n α β) (x : TwoLevelIn T n α β) (t : Fin T) : Nat :=
  ((s.tiles t).newEntry barrierAddr (x.tile t) 0).toList.countP (·.isBarrier barrierAddr)

/-- The path shows a barrier request at the cluster barrier, possibly one sent in this very cycle. -/
def shows (s : TwoLevel T n α β) (x : TwoLevelIn T n α β) (t : Fin T) : Bool :=
  x.present t && decide (0 < s.up t + s.sent barrierAddr x t)

/-- `axi_slv_req_i` and the other inputs of the cluster barrier. -/
def clusterIn (s : TwoLevel T n α β) (x : TwoLevelIn T n α β) : ClusterIn T where
  ar := fun t =>
    if s.shows barrierAddr x t then some ⟨barrierAddr, x.arId t, x.arUser t⟩
    else (x.other t).filter fun ar => ar.addr ≠ barrierAddr
  rReady := x.rReady
  arReady := x.arReady
  r := x.r
  barrierI := mask

/-- The barrier request is taken at the cluster barrier's port. -/
def taken (s : TwoLevel T n α β) (x : TwoLevelIn T n α β) (t : Fin T) : Bool :=
  s.shows barrierAddr x t && s.cluster.arReadyO barrierAddr (s.clusterIn barrierAddr mask x) t

/-- It is absorbed there; in another state than `Idle` it passes on to the peripheral. -/
def absorbs (s : TwoLevel T n α β) (x : TwoLevelIn T n α β) (t : Fin T) : Bool :=
  s.taken barrierAddr mask x t && (s.cluster.stateQ t = .Idle : Bool)

/-- The cluster barrier's answer is taken by the path. -/
def returns (s : TwoLevel T n α β) (x : TwoLevelIn T n α β) (t : Fin T) : Bool :=
  s.cluster.answers (s.clusterIn barrierAddr mask x) t && x.rReady t

/-- The peripheral answers a barrier request that passed on to it. -/
def csrReturns (s : TwoLevel T n α β) (x : TwoLevelIn T n α β) (t : Fin T) : Bool :=
  x.csrAnswers t && decide (0 < s.csr t)

/-- Answers the path can show to the tile in this cycle. -/
def arrived (s : TwoLevel T n α β) (x : TwoLevelIn T n α β) (t : Fin T) : Nat :=
  s.down t + (s.returns barrierAddr mask x t).toNat + (s.csrReturns x t).toNat

/-- The oldest request of port 0 can be answered: it is not the barrier's, or its answer has come. -/
def gate (s : TwoLevel T n α β) (x : TwoLevelIn T n α β) (t : Fin T) : Bool :=
  match ((s.tiles t).pool barrierAddr (x.tile t) 0).head? with
  | some e => !e.isBarrier barrierAddr || decide (0 < s.arrived barrierAddr mask x t)
  | none => true

/-- The inputs of tile `t`. -/
def tileIn (s : TwoLevel T n α β) (x : TwoLevelIn T n α β) (t : Fin T) : TileIn n α β :=
  { x.tile t with
    pValid := fun i => (x.tile t).pValid i && (decide (i ≠ 0) || s.gate barrierAddr mask x t) }

/-- Answers to barrier requests taken by the tile in this cycle. -/
def consumed (s : TwoLevel T n α β) (x : TwoLevelIn T n α β) (t : Fin T) : Nat :=
  ((s.tiles t).newAnswered barrierAddr (s.tileIn barrierAddr mask x t) 0).toList.countP
    (·.isBarrier barrierAddr)

section

variable [Zero β]

def next (s : TwoLevel T n α β) (x : TwoLevelIn T n α β) : TwoLevel T n α β where
  tiles := fun t => (s.tiles t).next barrierAddr (s.tileIn barrierAddr mask x t)
  cluster := s.cluster.next barrierAddr (s.clusterIn barrierAddr mask x)
  up := fun t => s.up t + s.sent barrierAddr x t - (s.taken barrierAddr mask x t).toNat
  csr := fun t =>
    s.csr t + (s.taken barrierAddr mask x t && !s.absorbs barrierAddr mask x t).toNat -
      (s.csrReturns x t).toNat
  down := fun t => s.arrived barrierAddr mask x t - s.consumed barrierAddr mask x t
  absorbed := fun t => s.absorbed t + (s.absorbs barrierAddr mask x t).toNat
  answered := fun t => s.answered t + (s.returns barrierAddr mask x t).toNat

/-- The participation mask is in force from the start and constant. -/
def machine (T n : Nat) [NeZero n] (α β : Type) [Zero β] (barrierAddr : BitVec 32)
    (mask : Fin T → Bool) : Machine (TwoLevel T n α β) (TwoLevelIn T n α β) where
  init := reset mask n α β
  next := next barrierAddr mask

end

/-- All cores keep to the rules. -/
def CoresOk (barrierAddr : BitVec 32) (s : TwoLevel T n α β) (x : TwoLevelIn T n α β) : Prop :=
  ∀ t, (s.tiles t).CoreOk barrierAddr (x.tile t)

instance (barrierAddr : BitVec 32) (s : TwoLevel T n α β) (x : TwoLevelIn T n α β) :
    Decidable (s.CoresOk barrierAddr x) := by
  unfold CoresOk
  exact inferInstance

/-- Barrier requests core `i` of tile `t` has issued: those taken, and the one it holds. -/
def issued (barrierAddr : BitVec 32) (s : TwoLevel T n α β) (t : Fin T) (i : Fin n) : Nat :=
  ((s.tiles t).accepted i ++ ((s.tiles t).held i).toList).countP (·.isBarrier barrierAddr)

/-- Barrier responses core `i` of tile `t` has got, the one offered to it included. -/
def received (s : TwoLevel T n α β) (t : Fin T) (i : Fin n) : Nat :=
  (s.tiles t).barrierRsps i + if (s.tiles t).regs.stateQ i = .Take then 1 else 0

/-! ## The phases -/

/-- Tiles, path and cluster barrier in phase.  `sent_eq`, `absorbed_eq` and `answered_eq` follow the requests
of one tile up and down; `together` compares the tiles of the mask. -/
structure InPhase (barrierAddr : BitVec 32) (mask : Fin T → Bool) (s : TwoLevel T n α β) : Prop where
  sound : ∀ t, (s.tiles t).Sound barrierAddr
  transparent : ∀ t, (s.tiles t).Transparent barrierAddr
  counted : ∀ t i, ((s.tiles t).accepted i).countP (·.isBarrier barrierAddr) =
    (s.tiles t).granted.length
  alone : ∀ t, (s.tiles t).Alone
  mask_eq : s.cluster.barrierQ = mask
  no_csr : ∀ t, s.csr t = 0
  sent_eq : ∀ t, ((s.tiles t).forwarded 0).countP (·.isBarrier barrierAddr) = s.up t + s.absorbed t
  absorbed_eq : ∀ t, s.absorbed t = s.answered t + if s.cluster.stateQ t = .Idle then 0 else 1
  answered_eq : ∀ t, s.answered t =
    s.down t + ((s.tiles t).answered 0).countP (·.isBarrier barrierAddr)
  backed : ∀ t, (s.tiles t).showing 0 = true → ∀ e ∈ ((s.tiles t).pending 0).head?,
    e.isBarrier barrierAddr = true → 0 < s.down t
  together : ∀ t t', mask t = true → mask t' = true →
    s.absorbed t + (if s.cluster.stateQ t' = .Wait then 1 else 0) =
      s.absorbed t' + if s.cluster.stateQ t = .Wait then 1 else 0
  outside : ∀ t, mask t = false → s.cluster.stateQ t ≠ .Wait
  no_global : ∀ t, s.cluster.stateQ t ≠ .Global

variable {barrierAddr mask} {s : TwoLevel T n α β} {x : TwoLevelIn T n α β} {t : Fin T}

/-- The barrier requests of a tile that are not yet answered are on their way up, in the cluster barrier or
on their way down. -/
theorem InPhase.flow (h : InPhase barrierAddr mask s) (t : Fin T) :
    s.up t + (if s.cluster.stateQ t = .Idle then 0 else 1) + s.down t =
      ((s.tiles t).pending 0).countP (·.isBarrier barrierAddr) := by
  have h1 := h.sent_eq t
  have h2 := h.absorbed_eq t
  have h3 := h.answered_eq t
  rw [(h.sound t).in_order 0, List.countP_append] at h1
  omega

/-- What leaves the tile leaves it from `Wait`, with nothing else under way. -/
theorem InPhase.sent_cases (h : InPhase barrierAddr mask s) (hC : s.CoresOk barrierAddr x) (t : Fin T) :
    s.sent barrierAddr x t = 0 ∨
      (s.sent barrierAddr x t = 1 ∧ s.up t = 0 ∧ s.cluster.stateQ t = .Idle ∧ s.down t = 0) := by
  unfold sent
  cases hs : (s.tiles t).regs.stateQ 0 with
  | Idle =>
    left
    rcases TileSys.traffic_of_idle barrierAddr (x.tile t) hs with ⟨h1, _⟩ | ⟨q, hq, _, h1⟩
    · rw [h1]
      rfl
    · rw [h1]
      simp [Entry.isBarrier, TileSys.outQ_isBarrier, hq]
  | Wait =>
    have hflow := h.flow t
    rw [(TileSys.owed_cases (h.transparent t)).2 (Or.inr hs)] at hflow
    rcases TileSys.newEntry_cases_of_wait (x := x.tile t) (h.sound t) hs with h1 | ⟨_, _, _, e, h1, he⟩
    · left
      rw [h1]
      rfl
    · right
      rw [h1, Option.toList_some, List.countP_singleton, he]
      refine ⟨rfl, by omega, ?_, by omega⟩
      apply Classical.byContradiction
      intro hne
      rw [if_neg hne] at hflow
      omega
  | Global =>
    left
    rw [TileSys.newEntry_of_global hs]
    rfl
  | Take =>
    left
    rw [TileSys.newEntry_of_coreOk (hC t) hs]
    rfl

/-- A barrier request is shown at the cluster barrier only when that port is idle. -/
theorem InPhase.idle_of_shows (h : InPhase barrierAddr mask s) (hC : s.CoresOk barrierAddr x)
    (hsh : s.shows barrierAddr x t = true) : s.cluster.stateQ t = .Idle := by
  have hflow := h.flow t
  have howed := (TileSys.owed_cases (h.transparent t)).1
  have hpos : 0 < s.up t + s.sent barrierAddr x t := by
    rw [shows, Bool.and_eq_true, decide_eq_true_eq] at hsh
    exact hsh.2
  rcases h.sent_cases hC t with h0 | ⟨_, _, hidle, _⟩
  · apply Classical.byContradiction
    intro hne
    rw [if_neg hne] at hflow
    omega
  · exact hidle

theorem barrierReq_isSome :
    (ClusterBarrier.barrierReq barrierAddr (s.clusterIn barrierAddr mask x) t).isSome =
      s.shows barrierAddr x t := by
  cases hsh : s.shows barrierAddr x t with
  | true => simp [ClusterBarrier.barrierReq, clusterIn, hsh]
  | false =>
    cases ho : x.other t with
    | none => simp [ClusterBarrier.barrierReq, clusterIn, hsh, ho]
    | some ar => simp [ClusterBarrier.barrierReq, clusterIn, hsh, ho]

/-- An idle port absorbs what is shown to it. -/
theorem InPhase.taken_eq (h : InPhase barrierAddr mask s) (hC : s.CoresOk barrierAddr x) (t : Fin T) :
    s.taken barrierAddr mask x t = s.shows barrierAddr x t ∧
      s.absorbs barrierAddr mask x t = s.shows barrierAddr x t := by
  cases hsh : s.shows barrierAddr x t with
  | false => simp [taken, absorbs, hsh]
  | true =>
    have hidle := h.idle_of_shows hC hsh
    have hready : s.cluster.arReadyO barrierAddr (s.clusterIn barrierAddr mask x) t = true := by
      have hreq : (ClusterBarrier.barrierReq barrierAddr (s.clusterIn barrierAddr mask x) t).isSome =
          true := barrierReq_isSome.trans hsh
      obtain ⟨ar, har⟩ := Option.isSome_iff_exists.mp hreq
      rw [ClusterBarrier.arReadyO, hidle, har]
    simp [taken, absorbs, hsh, hready, hidle]

/-- A port that is not idle is shown nothing. -/
theorem InPhase.not_shows (h : InPhase barrierAddr mask s) (hC : s.CoresOk barrierAddr x)
    (hs : s.cluster.stateQ t ≠ .Idle) : s.shows barrierAddr x t = false := by
  cases hsh : s.shows barrierAddr x t with
  | false => rfl
  | true => exact absurd (h.idle_of_shows hC hsh) hs

variable [Zero β]

theorem InPhase.next_of_idle (h : InPhase barrierAddr mask s) (hs : s.cluster.stateQ t = .Idle) :
    (s.next barrierAddr mask x).cluster.stateQ t =
      if s.shows barrierAddr x t then if mask t then .Wait else .Take else .Idle := by
  show s.cluster.stateD barrierAddr (s.clusterIn barrierAddr mask x) t = _
  have hreq : (ClusterBarrier.barrierReq barrierAddr (s.clusterIn barrierAddr mask x) t).isSome =
      s.shows barrierAddr x t := barrierReq_isSome
  rw [ClusterBarrier.stateD, hs]
  cases hr : ClusterBarrier.barrierReq barrierAddr (s.clusterIn barrierAddr mask x) t with
  | none =>
    rw [hr] at hreq
    rw [← hreq]
    rfl
  | some ar =>
    rw [hr] at hreq
    rw [← hreq, ← h.mask_eq]
    rfl

theorem next_of_wait (hs : s.cluster.stateQ t = .Wait) :
    (s.next barrierAddr mask x).cluster.stateQ t =
      if s.cluster.takeBarrier then .Take else .Wait := by
  show s.cluster.stateD barrierAddr (s.clusterIn barrierAddr mask x) t = _
  rw [ClusterBarrier.stateD, hs]

theorem next_of_take (hs : s.cluster.stateQ t = .Take) :
    (s.next barrierAddr mask x).cluster.stateQ t =
      if s.returns barrierAddr mask x t then .Idle else .Take := by
  show s.cluster.stateD barrierAddr (s.clusterIn barrierAddr mask x) t = _
  rw [ClusterBarrier.stateD, hs]
  rfl

/-- While the barrier is not complete, a tile of the mask begins to wait exactly when it is absorbed. -/
theorem InPhase.next_wait (h : InPhase barrierAddr mask s) (hC : s.CoresOk barrierAddr x)
    (hm : mask t = true) (hb : s.cluster.takeBarrier = false) :
    (s.next barrierAddr mask x).absorbed t + (if s.cluster.stateQ t = .Wait then 1 else 0) =
      s.absorbed t +
        if (s.next barrierAddr mask x).cluster.stateQ t = .Wait then 1 else 0 := by
  show s.absorbed t + (s.absorbs barrierAddr mask x t).toNat + _ = _
  rw [(h.taken_eq hC t).2]
  cases hs : s.cluster.stateQ t with
  | Idle =>
    rw [h.next_of_idle hs, hm]
    cases s.shows barrierAddr x t <;> simp
  | Wait =>
    rw [next_of_wait hs, hb, h.not_shows hC (by rw [hs]; exact fun h => by cases h)]
    simp
  | Take =>
    rw [next_of_take hs, h.not_shows hC (by rw [hs]; exact fun h => by cases h)]
    cases s.returns barrierAddr mask x t <;> simp
  | Global => exact absurd hs (h.no_global t)

theorem InPhase.next_together (h : InPhase barrierAddr mask s) (hC : s.CoresOk barrierAddr x)
    (t t' : Fin T) (hm : mask t = true) (hm' : mask t' = true) :
    (s.next barrierAddr mask x).absorbed t +
        (if (s.next barrierAddr mask x).cluster.stateQ t' = .Wait then 1 else 0) =
      (s.next barrierAddr mask x).absorbed t' +
        if (s.next barrierAddr mask x).cluster.stateQ t = .Wait then 1 else 0 := by
  have hcur := h.together t t' hm hm'
  cases hb : s.cluster.takeBarrier with
  | false =>
    have h1 := h.next_wait hC hm hb
    have h2 := h.next_wait hC hm' hb
    omega
  | true =>
    -- all tiles of the mask wait, and are released in this cycle
    have hrel : ∀ u, mask u = true → s.cluster.stateQ u = .Wait ∧
        (s.next barrierAddr mask x).cluster.stateQ u = .Take ∧
        (s.next barrierAddr mask x).absorbed u = s.absorbed u := by
      intro u hu
      have hw : s.cluster.stateQ u = .Wait := by
        have := of_decide_eq_true hb u
        rw [h.mask_eq, hu, ClusterBarrier.isBarrier] at this
        exact of_decide_eq_true this.symm
      refine ⟨hw, ?_, ?_⟩
      · rw [next_of_wait hw, hb]
        rfl
      · show s.absorbed u + (s.absorbs barrierAddr mask x u).toNat = s.absorbed u
        rw [(h.taken_eq hC u).2, h.not_shows hC (by rw [hw]; exact fun h => by cases h)]
        rfl
    obtain ⟨hw, hk, ha⟩ := hrel t hm
    obtain ⟨hw', hk', ha'⟩ := hrel t' hm'
    rw [hw, hw'] at hcur
    rw [ha, ha', hk, hk']
    simpa using hcur

end TwoLevel

end Barrier

end CachePool
