import CachePool.Flush.Peripheral

/-!
# Flush tracking in a tile (`cachepool_tile`)

The processes `gen_tile_active`, `gen_ctrl_valid` and `gen_flush_next` of tile `t` with `m` cache
controllers: which controllers an instruction of the peripheral starts, which of them still have to
finish, and the one-cycle ready pulse at the end.

* `l1dInsnReadyO_iff` — the pulse comes exactly in the cycle that leaves nothing to finish.
* `next_flushPendingQ`, `next_cacheFlushQ` — the two registers after a cycle.
-/

set_option autoImplicit false

namespace CachePool

namespace Flush

/-- The case tree of `gen_ctrl_valid`: whether an instruction starts controller `cb` of a tile with
`np` private banks. -/
def insnSelects (insn : BitVec 2) (np cb : Nat) : Bool :=
  if insn = 0 then decide (cb < np)
  else if insn = 1 then decide (np ≤ cb)
  else true

/-- `tile_insn_active`. -/
def tileInsnActive {n : Nat} (insn : CacheInsn n) (t : Fin n) : Bool :=
  if insn.insn = 0 then insn.tileSel t else true

/-- `cache_flush_q` and `flush_pending_q`. -/
structure TileFlush (m : Nat) where
  cacheFlushQ : Fin m → Bool
  flushPendingQ : Bool

namespace TileFlush

variable {n m : Nat}

def reset : TileFlush m := ⟨fun _ => false, false⟩

variable (s : TileFlush m)

/-- The tile takes the instruction on its port. -/
def accepts (valid : Bool) (insn : CacheInsn n) (t : Fin n) : Bool :=
  valid && tileInsnActive insn t && !s.flushPendingQ

/-- `ctrl_sync_valid`. -/
def ctrlSyncValid (valid : Bool) (insn : CacheInsn n) (t : Fin n) (np : Nat) (cb : Fin m) : Bool :=
  s.accepts valid insn t && insnSelects insn.insn np cb

/-- `cache_flush_d`. -/
def cacheFlushD (sync ready : Fin m → Bool) (cb : Fin m) : Bool :=
  if ready cb then false else if sync cb then true else s.cacheFlushQ cb

/-- `l1d_insn_ready_o`. -/
def l1dInsnReadyO (sync ready : Fin m → Bool) : Bool :=
  s.flushPendingQ && decide (∀ cb, s.cacheFlushD sync ready cb = false)

/-- One cycle: `accept` tells whether an instruction is taken, `sync` which controllers it starts and
`ready` which controllers finish. -/
def next (accept : Bool) (sync ready : Fin m → Bool) : TileFlush m where
  cacheFlushQ := s.cacheFlushD sync ready
  flushPendingQ :=
    if s.flushPendingQ && decide (∀ cb, s.cacheFlushD sync ready cb = false) then false
    else if accept then true
    else s.flushPendingQ

end TileFlush

/-- The encoding a controller receives: `11` for an invalidation and `00` for every flush
(`ctrl_sync_insn`). -/
def ctrlSyncInsn (insn : BitVec 2) : BitVec 2 := if insn = 3 then 3 else 0

namespace TileFlush

variable {n m : Nat} {s : TileFlush m}

theorem accepts_of_pending (h : s.flushPendingQ = true) (valid : Bool) (insn : CacheInsn n)
    (t : Fin n) : s.accepts valid insn t = false := by
  simp [accepts, h]

theorem l1dInsnReadyO_iff {sync ready : Fin m → Bool} :
    s.l1dInsnReadyO sync ready = true ↔
      s.flushPendingQ = true ∧ ∀ cb, s.cacheFlushD sync ready cb = false := by
  simp [l1dInsnReadyO]

/-- A tile stays pending from the instruction it takes to the pulse it gives. -/
theorem next_flushPendingQ (accept : Bool) (sync ready : Fin m → Bool) :
    (s.next accept sync ready).flushPendingQ =
      (!s.l1dInsnReadyO sync ready && (accept || s.flushPendingQ)) := by
  unfold next l1dInsnReadyO
  cases s.flushPendingQ <;> cases accept <;> simp

theorem cacheFlushD_eq (sync ready : Fin m → Bool) (cb : Fin m) :
    s.cacheFlushD sync ready cb = (!ready cb && (sync cb || s.cacheFlushQ cb)) := by
  unfold cacheFlushD
  cases ready cb <;> cases sync cb <;> simp

theorem next_cacheFlushQ (accept : Bool) (sync ready : Fin m → Bool) (cb : Fin m) :
    (s.next accept sync ready).cacheFlushQ cb = (!ready cb && (sync cb || s.cacheFlushQ cb)) :=
  cacheFlushD_eq sync ready cb

end TileFlush

end Flush

end CachePool
