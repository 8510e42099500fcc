import CachePool.Interco

/-!
# The flush controller of the peripheral (`cachepool_peripheral`)

The registers of the register file that steer the L1 cache, and the process `l1d_insn_cfg`: an
instruction leaves when the commit bit is set and no tile is locked; the partition registers are
loaded whenever the commit bit is set.

One bus access reaches the register file in a cycle at most; an access it answers with an error
changes nothing and is left out.  Registers of other functions (boot, interrupts, barrier, scratchpad)
are left out as well.

* `l1dInsnO_tileSel` — the tile mask an issued instruction carries.
* `Peripheral.next_l1dInsnCommit` — the commit bit after a cycle.
-/

set_option autoImplicit false

namespace CachePool

/-- A read-write register `prim_subreg` of the register library: what it holds after a cycle with
software write `we`/`wd` and hardware write `de`/`d`.  The software write has priority. -/
structure PrimSubreg where
  nextQ : {α : Type} → (we : Bool) → (wd : α) → (de : Bool) → (d : α) → (q : α) → α
  nextQ_sw : ∀ {α : Type} (wd : α) (de : Bool) (d q : α), nextQ true wd de d q = wd
  nextQ_hw : ∀ {α : Type} (wd d q : α), nextQ false wd true d q = d
  nextQ_hold : ∀ {α : Type} (wd d q : α), nextQ false wd false d q = q

attribute [simp] PrimSubreg.nextQ_sw PrimSubreg.nextQ_hw PrimSubreg.nextQ_hold

/-- A register that behaves so. -/
def primSubreg : PrimSubreg where
  nextQ we wd de d q := if we then wd else if de then d else q
  nextQ_sw _ _ _ _ := rfl
  nextQ_hw _ _ _ := rfl
  nextQ_hold _ _ _ := rfl

namespace Flush

/-- The registers of the register file that the flush controller uses. -/
inductive Reg where
  | cfgL1dInsn
  | cfgL1dTileSel
  | l1dInsnCommit
  | l1dFlushStatus
  | l1dPrivate
  | l1dAddr
  deriving DecidableEq, Repr

/-- One access of the register bus. -/
structure RegReq where
  addr : Reg
  write : Bool
  wdata : BitVec 32
  deriving DecidableEq, Repr

/-- `<reg>_we`. -/
def regWe (req : Option RegReq) (r : Reg) : Bool :=
  match req with
  | some q => q.write && decide (q.addr = r)
  | none => false

/-- `<reg>_re`. -/
def regRe (req : Option RegReq) (r : Reg) : Bool :=
  match req with
  | some q => !q.write && decide (q.addr = r)
  | none => false

def regWdata (req : Option RegReq) : BitVec 32 :=
  match req with
  | some q => q.wdata
  | none => 0

/-- `cache_insn_t` for `n` tiles. -/
structure CacheInsn (n : Nat) where
  insn : BitVec 2
  tileSel : Fin n → Bool

instance {n : Nat} : DecidableEq (CacheInsn n) := fun a b =>
  decidable_of_iff (a.insn = b.insn ∧ ∀ t, a.tileSel t = b.tileSel t) <| by
    obtain ⟨i, f⟩ := a
    obtain ⟨j, g⟩ := b
    simp only [CacheInsn.mk.injEq, funext_iff]

/-- The registers `reg2hw` shows to the flush controller, and its own flip-flops. -/
structure Peripheral (n : Nat) where
  cfgL1dInsn : BitVec 2
  cfgL1dTileSel : BitVec 32
  l1dInsnCommit : Bool
  l1dPrivate : BitVec 4
  l1dAddr : BitVec 32
  l1dPrivateQ : BitVec 4
  privateStartAddrQ : BitVec 32
  l1dLockQ : Fin n → Bool

variable {n : Nat}

/-- The tiles an instruction is meant for: the mask for a private flush, all tiles otherwise. -/
def tileSelOf (insn : BitVec 2) (mask : BitVec 32) (t : Fin n) : Bool :=
  if insn = 0 then mask.getLsbD t else true

namespace Peripheral

def reset : Peripheral n where
  cfgL1dInsn := 0
  cfgL1dTileSel := 0
  l1dInsnCommit := false
  l1dPrivate := 0
  l1dAddr := 0xA0000000
  l1dPrivateQ := 0
  privateStartAddrQ := 0xA0000000
  l1dLockQ := fun _ => false

variable (s : Peripheral n)

/-- `|l1d_lock_q`, which is also `hw2reg.l1d_flush_status.d`. -/
def locked : Bool := decide (∃ t, s.l1dLockQ t = true)

/-- `l1d_insn_valid_o`. -/
def l1dInsnValidO : Bool := s.l1dInsnCommit && !s.locked

/-- `l1d_insn_o`. -/
def l1dInsnO : CacheInsn n :=
  if s.l1dInsnValidO then
    { insn := s.cfgL1dInsn, tileSel := tileSelOf s.cfgL1dInsn s.cfgL1dTileSel }
  else { insn := 0, tileSel := fun _ => false }

/-- `l1d_lock_d`: an issued instruction locks the tiles it is meant for, a tile's ready pulse
unlocks it. -/
def l1dLockD (ready : Fin n → Bool) (t : Fin n) : Bool :=
  if ready t then false
  else if s.l1dInsnValidO then s.l1dInsnO.tileSel t else s.l1dLockQ t

/-- One cycle with the bus access `req` and the tiles' pulses `l1d_insn_ready_i`. -/
def next (R : PrimSubreg) (req : Option RegReq) (ready : Fin n → Bool) : Peripheral n where
  cfgL1dInsn := R.nextQ (regWe req .cfgL1dInsn) ((regWdata req).setWidth 2) false 0 s.cfgL1dInsn
  cfgL1dTileSel := R.nextQ (regWe req .cfgL1dTileSel) (regWdata req) false 0 s.cfgL1dTileSel
  -- the commit is cleared when the instruction is taken
  l1dInsnCommit := R.nextQ (regWe req .l1dInsnCommit) ((regWdata req).getLsbD 0)
    s.l1dInsnValidO false s.l1dInsnCommit
  l1dPrivate := R.nextQ (regWe req .l1dPrivate) ((regWdata req).setWidth 4) false 0 s.l1dPrivate
  l1dAddr := R.nextQ (regWe req .l1dAddr) (regWdata req) false 0 s.l1dAddr
  l1dPrivateQ := if s.l1dInsnCommit then s.l1dPrivate else s.l1dPrivateQ
  privateStartAddrQ := if s.l1dInsnCommit then s.l1dAddr else s.privateStartAddrQ
  l1dLockQ := s.l1dLockD ready

/-- The partition the peripheral shows to the tiles, next to the crossbar offset. -/
def partCfg (offset : BitVec 5) : PartCfg where
  dynamicOffset := offset
  l1dPrivate := s.l1dPrivateQ
  privateStartAddr := s.privateStartAddrQ

/-- The instruction the operand registers describe. -/
def operands : CacheInsn n := ⟨s.cfgL1dInsn, tileSelOf s.cfgL1dInsn s.cfgL1dTileSel⟩

variable {s}

theorem locked_eq_false_iff : s.locked = false ↔ ∀ t, s.l1dLockQ t = false := by
  simp [locked]

theorem l1dInsnValidO_iff :
    s.l1dInsnValidO = true ↔ s.l1dInsnCommit = true ∧ ∀ t, s.l1dLockQ t = false := by
  rw [l1dInsnValidO, Bool.and_eq_true, Bool.not_eq_true', locked_eq_false_iff]

/-- A commit that is not issued waits behind a lock. -/
theorem locked_of_commit (hv : s.l1dInsnValidO = false) (hc : s.l1dInsnCommit = true) :
    s.locked = true := by
  simpa [l1dInsnValidO, hc] using hv

theorem l1dInsnO_of_valid (h : s.l1dInsnValidO = true) : s.l1dInsnO = s.operands := by
  rw [l1dInsnO, if_pos h]
  rfl

/-- Every issued instruction but a private flush goes to all tiles. -/
theorem l1dInsnO_tileSel (h : s.l1dInsnValidO = true) (h0 : s.l1dInsnO.insn ≠ 0) (t : Fin n) :
    s.l1dInsnO.tileSel t = true := by
  rw [l1dInsnO_of_valid h] at h0 ⊢
  exact if_neg h0

theorem l1dLockD_of_valid (h : s.l1dInsnValidO = true) (ready : Fin n → Bool) (t : Fin n) :
    s.l1dLockD ready t = (!ready t && s.l1dInsnO.tileSel t) := by
  cases hr : ready t <;> simp [l1dLockD, h, hr]

theorem l1dLockD_of_not_valid (h : s.l1dInsnValidO = false) (ready : Fin n → Bool) (t : Fin n) :
    s.l1dLockD ready t = (!ready t && s.l1dLockQ t) := by
  cases hr : ready t <;> simp [l1dLockD, h, hr]

/-- The commit bit after a cycle: what software writes into it; otherwise it stays until the
instruction is taken. -/
theorem next_l1dInsnCommit (R : PrimSubreg) (req : Option RegReq) (ready : Fin n → Bool) :
    (s.next R req ready).l1dInsnCommit =
      if regWe req .l1dInsnCommit then (regWdata req).getLsbD 0
      else s.l1dInsnCommit && s.locked := by
  unfold next
  cases regWe req .l1dInsnCommit
  · cases hv : s.l1dInsnValidO
    · cases hc : s.l1dInsnCommit
      · simp
      · simp [locked_of_commit hv hc]
    · have := (l1dInsnValidO_iff.mp hv)
      simp [locked_eq_false_iff.mpr this.2]
  · simp

end Peripheral

end Flush

end CachePool
