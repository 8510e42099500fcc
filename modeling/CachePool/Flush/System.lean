import CachePool.Flush.Tile
import CachePool.Lib.Machine

/-!
# Peripheral and tiles together

`n` tiles with `m` cache controllers each, wired to the peripheral as in `cachepool_cluster`.  A
cycle is given by the bus access and by the controllers that finish; a controller may finish only
what it has been started on (`CtrlOk`).  Beside the hardware state the machine keeps the history the
results speak of: the instructions issued, the starts each controller has seen, what it has finished,
and the ready pulses of each tile.

* `LockStep` — the joint invariant of peripheral and tiles; `lockStep_next` is its step.
* `flush_lock_step` — it holds after every run, an instruction leaves only to idle tiles, and a
  ready pulse always meets the lock it clears.
-/

set_option autoImplicit false

namespace CachePool

namespace Flush

/-- An instruction as it was issued, with the partition boundary of that cycle. -/
structure Issue (n : Nat) where
  insn : CacheInsn n
  numPrivate : Nat

/-- Controller `cb` of tile `t` is selected. -/
def Issue.selects {n : Nat} (i : Issue n) (t : Fin n) (cb : Nat) : Bool :=
  i.insn.tileSel t && insnSelects i.insn.insn i.numPrivate cb

structure Sys (n m : Nat) where
  periph : Peripheral n
  tile : Fin n → TileFlush m
  /-- flushes a controller has been started on and has not finished -/
  outstanding : Fin n → Fin m → Nat
  /-- commits written (and not withdrawn) since the last instruction was issued -/
  waiting : Nat
  issued : List (Issue n)
  synced : Fin n → Fin m → List (BitVec 2)
  finished : Fin n → Fin m → Nat
  pulses : Fin n → Nat

/-- The inputs of one cycle: the bus access and `ctrl_sync_ready` of every controller. -/
structure Cycle (n m : Nat) where
  req : Option RegReq
  syncReady : Fin n → Fin m → Bool

namespace Sys

variable {n m : Nat}

def reset : Sys n m where
  periph := Peripheral.reset
  tile := fun _ => TileFlush.reset
  outstanding := fun _ _ => 0
  waiting := 0
  issued := []
  synced := fun _ _ => []
  finished := fun _ _ => 0
  pulses := fun _ => 0

variable (s : Sys n m) (x : Cycle n m)

/-- `num_private_cache` at the tiles. -/
def numPrivateCache : Nat := (s.periph.partCfg 0).numPrivateCache

def accepts (t : Fin n) : Bool := (s.tile t).accepts s.periph.l1dInsnValidO s.periph.l1dInsnO t

def sync (t : Fin n) (cb : Fin m) : Bool :=
  (s.tile t).ctrlSyncValid s.periph.l1dInsnValidO s.periph.l1dInsnO t s.numPrivateCache cb

/-- `l1d_insn_ready` of tile `t`. -/
def insnReady (t : Fin n) : Bool := (s.tile t).l1dInsnReadyO (s.sync t) (x.syncReady t)

/-- The instruction issued in this cycle. -/
def issue : Issue n := ⟨s.periph.l1dInsnO, s.numPrivateCache⟩

def next (R : PrimSubreg) : Sys n m where
  periph := s.periph.next R x.req (s.insnReady x)
  tile t := (s.tile t).next (s.accepts t) (s.sync t) (x.syncReady t)
  outstanding t cb :=
    s.outstanding t cb + (s.sync t cb).toNat - (x.syncReady t cb).toNat
  waiting :=
    if regWe x.req .l1dInsnCommit then
      if (regWdata x.req).getLsbD 0 then (if s.periph.l1dInsnValidO then 0 else s.waiting) + 1 else 0
    else if s.periph.l1dInsnValidO then 0 else s.waiting
  issued := if s.periph.l1dInsnValidO then s.issued ++ [s.issue] else s.issued
  synced t cb :=
    if s.sync t cb then s.synced t cb ++ [ctrlSyncInsn s.periph.l1dInsnO.insn] else s.synced t cb
  finished t cb := s.finished t cb + (x.syncReady t cb).toNat
  pulses t := s.pulses t + (s.insnReady x t).toNat

/-- Controllers finish only what they have been started on, at the earliest in the same cycle. -/
def CtrlOk : Prop := ∀ t cb, x.syncReady t cb = true → 0 < s.outstanding t cb + (s.sync t cb).toNat

instance : Decidable (s.CtrlOk x) := by
  unfold CtrlOk
  exact inferInstance

/-- The flush hardware as a machine. -/
def machine (R : PrimSubreg) (n m : Nat) : Machine (Sys n m) (Cycle n m) where
  init := reset
  next := fun s x => s.next x R

/-- **The joint invariant.** -/
structure LockStep : Prop where
  lock_eq : ∀ t, s.periph.l1dLockQ t = (s.tile t).flushPendingQ
  pending_of_flush : ∀ t cb, (s.tile t).cacheFlushQ cb = true → (s.tile t).flushPendingQ = true
  outstanding_eq : ∀ t cb, s.outstanding t cb = ((s.tile t).cacheFlushQ cb).toNat
  synced_eq : ∀ t cb, s.synced t cb =
    (s.issued.filter (·.selects t cb)).map (fun i => ctrlSyncInsn i.insn.insn)
  finished_eq : ∀ t cb, s.finished t cb + s.outstanding t cb = (s.synced t cb).length
  pulses_eq : ∀ t, s.pulses t + (s.periph.l1dLockQ t).toNat =
    (s.issued.filter (·.insn.tileSel t)).length
  waiting_iff : s.waiting = 0 ↔ s.periph.l1dInsnCommit = false

variable {s x}

/-! ## What a cycle does to one tile -/

theorem lockStep_reset : LockStep (reset : Sys n m) := by
  refine ⟨?_, ?_, ?_, ?_, ?_, ?_, ?_⟩ <;> intros <;>
    simp_all [reset, Peripheral.reset, TileFlush.reset]

/-- The controllers of a tile that is not pending are idle. -/
theorem LockStep.ctrl_idle (I : LockStep s) {t : Fin n} (h : (s.tile t).flushPendingQ = false)
    (cb : Fin m) : (s.tile t).cacheFlushQ cb = false ∧ s.outstanding t cb = 0 := by
  have hc : (s.tile t).cacheFlushQ cb = false := by
    cases hq : (s.tile t).cacheFlushQ cb
    · rfl
    · have hp := I.pending_of_flush t cb hq
      rw [h] at hp
      cases hp
  exact ⟨hc, by rw [I.outstanding_eq, hc]; rfl⟩

/-- An instruction leaves only when every tile and every controller is idle. -/
theorem LockStep.idle (I : LockStep s) (hv : s.periph.l1dInsnValidO = true) (t : Fin n) :
    (s.tile t).flushPendingQ = false ∧
      ∀ cb, (s.tile t).cacheFlushQ cb = false ∧ s.outstanding t cb = 0 := by
  have hp : (s.tile t).flushPendingQ = false := by
    rw [← I.lock_eq t]
    exact (Peripheral.l1dInsnValidO_iff.mp hv).2 t
  exact ⟨hp, I.ctrl_idle hp⟩

/-- The tiles that take an instruction are the ones the peripheral locks. -/
theorem LockStep.accepts_of_valid (I : LockStep s) (hv : s.periph.l1dInsnValidO = true)
    (t : Fin n) : s.accepts t = s.periph.l1dInsnO.tileSel t := by
  unfold accepts TileFlush.accepts tileInsnActive
  rw [hv, (I.idle hv t).1]
  split
  · simp
  · rename_i h0
    simp [Peripheral.l1dInsnO_tileSel hv h0 t]

theorem accepts_of_not_valid (hv : s.periph.l1dInsnValidO = false) (t : Fin n) :
    s.accepts t = false := by
  simp [accepts, TileFlush.accepts, hv]

/-- The controllers that are started are the selected ones. -/
theorem LockStep.sync_of_valid (I : LockStep s) (hv : s.periph.l1dInsnValidO = true)
    (t : Fin n) (cb : Fin m) : s.sync t cb = s.issue.selects t cb := by
  have h := I.accepts_of_valid hv t
  unfold accepts at h
  rw [sync, TileFlush.ctrlSyncValid, h]
  rfl

theorem sync_of_not_valid (hv : s.periph.l1dInsnValidO = false) (t : Fin n) (cb : Fin m) :
    s.sync t cb = false := by
  have h := accepts_of_not_valid hv t
  unfold accepts at h
  rw [sync, TileFlush.ctrlSyncValid, h]
  rfl

theorem LockStep.insnReady_of_valid (I : LockStep s) (hv : s.periph.l1dInsnValidO = true)
    (t : Fin n) : s.insnReady x t = false := by
  simp [insnReady, TileFlush.l1dInsnReadyO, (I.idle hv t).1]

/-- A ready pulse always comes from a locked tile. -/
theorem LockStep.lock_of_insnReady (I : LockStep s) {t : Fin n} (h : s.insnReady x t = true) :
    s.periph.l1dLockQ t = true := by
  rw [I.lock_eq]
  exact (TileFlush.l1dInsnReadyO_iff.mp h).1

/-- The lock bits after a cycle. -/
theorem LockStep.next_lock (I : LockStep s) (R : PrimSubreg) (t : Fin n) :
    (s.next x R).periph.l1dLockQ t =
      (!s.insnReady x t && (s.accepts t || (s.tile t).flushPendingQ)) := by
  show s.periph.l1dLockD (s.insnReady x) t = _
  cases hv : s.periph.l1dInsnValidO
  · rw [Peripheral.l1dLockD_of_not_valid hv, accepts_of_not_valid hv, I.lock_eq, Bool.false_or]
  · rw [Peripheral.l1dLockD_of_valid hv, I.accepts_of_valid hv, (I.idle hv t).1, Bool.or_false]

theorem next_cacheFlushQ (R : PrimSubreg) (t : Fin n) (cb : Fin m) :
    ((s.next x R).tile t).cacheFlushQ cb =
      (!x.syncReady t cb && (s.sync t cb || (s.tile t).cacheFlushQ cb)) :=
  TileFlush.next_cacheFlushQ _ _ _ cb

theorem next_flushPendingQ (R : PrimSubreg) (t : Fin n) :
    ((s.next x R).tile t).flushPendingQ =
      (!s.insnReady x t && (s.accepts t || (s.tile t).flushPendingQ)) :=
  TileFlush.next_flushPendingQ _ _ _

/-! ## The invariant over a cycle -/

theorem LockStep.next_pending_of_flush (I : LockStep s) (R : PrimSubreg) (t : Fin n) (cb : Fin m)
    (h : ((s.next x R).tile t).cacheFlushQ cb = true) :
    ((s.next x R).tile t).flushPendingQ = true := by
  have hnr : s.insnReady x t = false := by
    cases hr : s.insnReady x t
    · rfl
    · have hd : ((s.next x R).tile t).cacheFlushQ cb = false :=
        (TileFlush.l1dInsnReadyO_iff.mp hr).2 cb
      rw [hd] at h
      cases h
  rw [next_cacheFlushQ, Bool.and_eq_true, Bool.or_eq_true] at h
  rw [next_flushPendingQ, hnr]
  rcases h.2 with hs | hc
  · have ha : s.accepts t = true := by
      rw [sync, TileFlush.ctrlSyncValid, Bool.and_eq_true] at hs
      exact hs.1
    simp [ha]
  · simp [I.pending_of_flush t cb hc]

/-- A controller is not started while it still has to finish. -/
theorem LockStep.cacheFlushQ_of_sync (I : LockStep s) {t : Fin n} {cb : Fin m}
    (h : s.sync t cb = true) : (s.tile t).cacheFlushQ cb = false := by
  cases hv : s.periph.l1dInsnValidO
  · rw [sync_of_not_valid hv] at h
    cases h
  · exact ((I.idle hv t).2 cb).1

theorem LockStep.next_outstanding (I : LockStep s) (hok : s.CtrlOk x) (R : PrimSubreg) (t : Fin n)
    (cb : Fin m) :
    (s.next x R).outstanding t cb = (((s.next x R).tile t).cacheFlushQ cb).toNat := by
  have hready := hok t cb
  have hout := I.outstanding_eq t cb
  rw [next_cacheFlushQ]
  show s.outstanding t cb + (s.sync t cb).toNat - (x.syncReady t cb).toNat = _
  cases hs : s.sync t cb
  · cases hc : (s.tile t).cacheFlushQ cb <;> cases hr : x.syncReady t cb <;> simp_all
  · have hc := I.cacheFlushQ_of_sync hs
    cases hr : x.syncReady t cb <;> simp_all

theorem LockStep.next_synced (I : LockStep s) (R : PrimSubreg) (t : Fin n) (cb : Fin m) :
    (s.next x R).synced t cb =
      ((s.next x R).issued.filter (·.selects t cb)).map (fun i => ctrlSyncInsn i.insn.insn) := by
  show (if s.sync t cb then s.synced t cb ++ [ctrlSyncInsn s.periph.l1dInsnO.insn]
    else s.synced t cb) = ((if s.periph.l1dInsnValidO then s.issued ++ [s.issue]
    else s.issued).filter (·.selects t cb)).map (fun i => ctrlSyncInsn i.insn.insn)
  cases hv : s.periph.l1dInsnValidO
  · rw [sync_of_not_valid hv]
    exact I.synced_eq t cb
  · rw [I.sync_of_valid hv, if_pos rfl, List.filter_append, List.map_append, ← I.synced_eq t cb]
    cases hsel : s.issue.selects t cb
    · simp [hsel]
    · simp [hsel]
      rfl

theorem LockStep.next_finished (I : LockStep s) (hok : s.CtrlOk x) (R : PrimSubreg) (t : Fin n)
    (cb : Fin m) :
    (s.next x R).finished t cb + (s.next x R).outstanding t cb =
      ((s.next x R).synced t cb).length := by
  have h := I.finished_eq t cb
  have hready := hok t cb
  show s.finished t cb + (x.syncReady t cb).toNat +
    (s.outstanding t cb + (s.sync t cb).toNat - (x.syncReady t cb).toNat) =
    (if s.sync t cb then s.synced t cb ++ [ctrlSyncInsn s.periph.l1dInsnO.insn]
      else s.synced t cb).length
  cases hr : x.syncReady t cb
  · cases hs : s.sync t cb
    · simpa using h
    · simp
      omega
  · have hpos := hready hr
    cases hs : s.sync t cb
    · simp [hs] at hpos ⊢
      omega
    · simp
      omega

theorem LockStep.next_pulses (I : LockStep s) (R : PrimSubreg) (t : Fin n) :
    (s.next x R).pulses t + ((s.next x R).periph.l1dLockQ t).toNat =
      ((s.next x R).issued.filter (·.insn.tileSel t)).length := by
  have h := I.pulses_eq t
  rw [I.next_lock]
  show s.pulses t + (s.insnReady x t).toNat + _ = ((if s.periph.l1dInsnValidO then
    s.issued ++ [s.issue] else s.issued).filter (·.insn.tileSel t)).length
  cases hv : s.periph.l1dInsnValidO
  · rw [accepts_of_not_valid hv, ← I.lock_eq]
    cases hr : s.insnReady x t
    · simpa using h
    · have hl := I.lock_of_insnReady hr
      simp [hl] at h ⊢
      omega
  · have hl : s.periph.l1dLockQ t = false := (Peripheral.l1dInsnValidO_iff.mp hv).2 t
    rw [I.insnReady_of_valid hv, I.accepts_of_valid hv, (I.idle hv t).1, if_pos rfl,
      List.filter_append, List.length_append, ← h, hl]
    cases hsel : s.periph.l1dInsnO.tileSel t <;> simp [issue, hsel]

theorem LockStep.next_waiting (I : LockStep s) (R : PrimSubreg) :
    (s.next x R).waiting = 0 ↔ (s.next x R).periph.l1dInsnCommit = false := by
  have hw := I.waiting_iff
  have hc : (s.next x R).periph.l1dInsnCommit = _ :=
    Peripheral.next_l1dInsnCommit R x.req (s.insnReady x)
  rw [hc]
  unfold next
  cases regWe x.req .l1dInsnCommit
  · cases hv : s.periph.l1dInsnValidO
    · cases hq : s.periph.l1dInsnCommit
      · simp [hw, hq]
      · simp [hw, hq, Peripheral.locked_of_commit hv hq]
    · have hl := (Peripheral.l1dInsnValidO_iff.mp hv).2
      simp [Peripheral.locked_eq_false_iff.mpr hl]
  · cases (regWdata x.req).getLsbD 0 <;> simp

theorem lockStep_next (I : LockStep s) (hok : s.CtrlOk x) (R : PrimSubreg) :
    LockStep (s.next x R) where
  lock_eq t := by rw [I.next_lock, next_flushPendingQ]
  pending_of_flush := I.next_pending_of_flush R
  outstanding_eq := I.next_outstanding hok R
  synced_eq := I.next_synced R
  finished_eq := I.next_finished hok R
  pulses_eq := I.next_pulses R
  waiting_iff := I.next_waiting R

theorem lockStep_run (R : PrimSubreg) (xs : List (Cycle n m)) (h : (machine R n m).Meets CtrlOk xs) :
    LockStep ((machine R n m).run xs) :=
  Machine.invariant (M := machine R n m) lockStep_reset (fun _ _ I hok => lockStep_next I hok R) xs h

/-- A pending tile with nothing left to finish pulses, also when no controller was selected. -/
theorem insnReady_of_done {t : Fin n}
    (hp : (s.tile t).flushPendingQ = true)
    (hd : ∀ cb, (s.tile t).cacheFlushQ cb = true → x.syncReady t cb = true) :
    s.insnReady x t = true := by
  refine TileFlush.l1dInsnReadyO_iff.mpr ⟨hp, fun cb => ?_⟩
  have hs : s.sync t cb = false := by
    rw [sync, TileFlush.ctrlSyncValid, TileFlush.accepts_of_pending hp, Bool.false_and]
  rw [TileFlush.cacheFlushD_eq, hs, Bool.false_or]
  cases hc : (s.tile t).cacheFlushQ cb
  · simp
  · simp [hd cb hc]

/-- **Flush handshake in lock-step.**  After every run in which controllers finish only what they
were started on, for every number of tiles and controllers and every sequence of bus accesses:
`LockStep` holds, that is each lock bit equals the tile's pending bit, a controller has something to
finish only while its tile is pending and is started exactly once for each issued instruction that
selects it, and ready pulses and lock bits together count the instructions issued to a tile.  In any
next cycle an instruction is issued to idle tiles only, a ready pulse clears a set lock bit, and a
pending tile whose controllers are done gives its pulse. -/
theorem flush_lock_step (R : PrimSubreg) (n m : Nat) (xs : List (Cycle n m))
    (h : (machine R n m).Meets CtrlOk xs) :
    let s := (machine R n m).run xs
    LockStep s ∧
    (s.periph.l1dInsnValidO = true → ∀ t, (s.tile t).flushPendingQ = false ∧
      ∀ cb, (s.tile t).cacheFlushQ cb = false ∧ s.outstanding t cb = 0) ∧
    ∀ x t,
      (s.insnReady x t = true →
        s.periph.l1dLockQ t = true ∧ (s.next x R).periph.l1dLockQ t = false) ∧
      ((s.tile t).flushPendingQ = true →
        (∀ cb, 0 < s.outstanding t cb → x.syncReady t cb = true) → s.insnReady x t = true) := by
  intro s
  have I : LockStep s := lockStep_run R xs h
  refine ⟨I, fun hv t => I.idle hv t, fun x t => ⟨fun hr => ⟨I.lock_of_insnReady hr, ?_⟩, ?_⟩⟩
  · rw [I.next_lock, hr]
    rfl
  · intro hp hd
    refine insnReady_of_done hp (fun cb hc => hd cb ?_)
    rw [I.outstanding_eq, hc]
    decide

/-- The cycles of an instruction: its operand, the commit, and the issue. -/
def issueCycles (r : Reg) (v : BitVec 32) : List (Cycle 2 2) :=
  [⟨some ⟨r, true, v⟩, fun _ _ => false⟩, ⟨some ⟨.l1dInsnCommit, true, 1⟩, fun _ _ => false⟩,
    ⟨none, fun _ _ => false⟩]

/-- A flush of everything starts all four controllers.  Tile 0 finishes first, then controller 0 of tile 1. -/
def flushAllCycles : List (Cycle 2 2) :=
  issueCycles .cfgL1dInsn 2 ++
    [⟨none, ![![true, true], ![false, false]]⟩, ⟨none, ![![false, false], ![true, false]]⟩]

/-- When the last controller is done as well, tile 1 gives its pulse. -/
theorem flush_lock_step_four_controllers :
    let s := (machine primSubreg 2 2).run flushAllCycles
    let last : Cycle 2 2 := ⟨none, ![![false, false], ![false, true]]⟩
    LockStep s ∧ (∀ t cb, s.synced t cb = [0]) ∧
      (s.pulses 0 = 1 ∧ s.periph.l1dLockQ 0 = false) ∧
      (s.pulses 1 = 0 ∧ s.periph.l1dLockQ 1 = true ∧ s.outstanding 1 0 = 0 ∧ s.outstanding 1 1 = 1) ∧
      s.insnReady last 1 = true ∧ (s.next last primSubreg).periph.l1dLockQ 1 = false := by
  intro s last
  have h := flush_lock_step primSubreg 2 2 flushAllCycles (by decide)
  have hready : s.insnReady last 1 = true := (h.2.2 last 1).2 (by decide) (by decide)
  exact ⟨h.1, by decide, by decide, by decide, hready, ((h.2.2 last 1).1 hready).2⟩

/-- Two tiles without private banks: a private flush of tile 1 selects no controller at all, and tile 1 is
locked for one cycle. -/
example :
    let s := (machine primSubreg 2 2).run (issueCycles .cfgL1dTileSel 2)
    (s.tile 1).flushPendingQ = true ∧ (∀ cb, s.outstanding 1 cb = 0) ∧
      (s.next ⟨none, fun _ _ => false⟩ primSubreg).periph.l1dLockQ 1 = false := by
  decide

end Sys

end Flush

end CachePool
