import CachePool.Flush.Peripheral

/-!
# The register file of the peripheral (`cachepool_peripheral_reg_top`)

* `Reg` — the registers in the order of their index, with offset, width, reset value, the bytes a write must
  enable, and how they are accessed.
* `addrHit`, `regWe`, `regError`, `rdata` — the decoding of one access of the register bus and its answer.
* `RegFile.next` — the registers after a cycle, with what the hardware writes into them.
* `regAt_eq_some_iff` — an address is that of one register at most; `we_iff`, `regError_iff` — which accesses
  write, and which are refused; `rdata_of_regAt` — what is read.
-/

set_option autoImplicit false

namespace CachePool

namespace Periph

/-- `cachepool_peripheral_id_e`. -/
inductive Reg where
  | hartSelect0
  | hartSelect1
  | clClintSet
  | clClintClear
  | hwBarrier
  | icachePrefetchEnable
  | spatzStatus
  | spatzCycle
  | clusterBootControl
  | clusterEocExit
  | cfgL1dSpm
  | cfgL1dInsn
  | cfgL1dTileSel
  | l1dSpmCommit
  | l1dInsnCommit
  | l1dFlushStatus
  | l1dPrivate
  | l1dAddr
  | xbarOffset
  | xbarOffsetCommit
  | hwBarrierParticipationMask
  deriving DecidableEq, Repr

namespace Reg

def all : List Reg :=
  [hartSelect0, hartSelect1, clClintSet, clClintClear, hwBarrier, icachePrefetchEnable, spatzStatus,
    spatzCycle, clusterBootControl, clusterEocExit, cfgL1dSpm, cfgL1dInsn, cfgL1dTileSel, l1dSpmCommit, l1dInsnCommit,
    l1dFlushStatus, l1dPrivate, l1dAddr, xbarOffset, xbarOffsetCommit, hwBarrierParticipationMask]

/-- `CACHEPOOL_PERIPHERAL_<REG>_OFFSET`. -/
def offset : Reg → BitVec 7
  | hartSelect0 => 0x0
  | hartSelect1 => 0x4
  | clClintSet => 0x8
  | clClintClear => 0xc
  | hwBarrier => 0x10
  | icachePrefetchEnable => 0x14
  | spatzStatus => 0x18
  | spatzCycle => 0x1c
  | clusterBootControl => 0x20
  | clusterEocExit => 0x24
  | cfgL1dSpm => 0x28
  | cfgL1dInsn => 0x2c
  | cfgL1dTileSel => 0x30
  | l1dSpmCommit => 0x34
  | l1dInsnCommit => 0x38
  | l1dFlushStatus => 0x3c
  | l1dPrivate => 0x40
  | l1dAddr => 0x44
  | xbarOffset => 0x48
  | xbarOffsetCommit => 0x4c
  | hwBarrierParticipationMask => 0x50

/-- `CACHEPOOL_PERIPHERAL_PERMIT`: the bytes a write must enable. -/
def permit : Reg → BitVec 4
  | hartSelect0 | hartSelect1 | cfgL1dSpm => 0b0011
  | clClintSet | clClintClear | hwBarrier | spatzCycle | clusterBootControl | cfgL1dTileSel | l1dAddr =>
    0b1111
  | icachePrefetchEnable | spatzStatus | clusterEocExit | cfgL1dInsn | l1dSpmCommit | l1dInsnCommit
  | l1dFlushStatus | l1dPrivate | xbarOffset | xbarOffsetCommit | hwBarrierParticipationMask => 0b0001

/-- The width of the field. -/
def width : Reg → Nat
  | hartSelect0 | hartSelect1 | cfgL1dSpm => 10
  | clClintSet | clClintClear | hwBarrier | spatzCycle | clusterBootControl | cfgL1dTileSel | l1dAddr => 32
  | icachePrefetchEnable | spatzStatus | l1dSpmCommit | l1dInsnCommit | l1dFlushStatus | xbarOffsetCommit => 1
  | clusterEocExit | l1dPrivate | hwBarrierParticipationMask => 4
  | cfgL1dInsn => 2
  | xbarOffset => 5

/-- `RESVAL`. -/
def resval : (r : Reg) → BitVec r.width
  | icachePrefetchEnable => 1#1
  | cfgL1dSpm => 0x20#10
  | l1dSpmCommit => 1#1
  | l1dAddr => 0xa0000000#32
  | hwBarrierParticipationMask => 0xf#4
  | r => 0#r.width

/-- How a register is accessed. -/
inductive Access where
  /-- `prim_subreg`, `SWACCESS` `RW` -/
  | rw
  /-- `prim_subreg`, `SWACCESS` `WO` -/
  | wo
  /-- `prim_subreg_ext` that software writes; it stores nothing -/
  | extWo
  /-- `prim_subreg_ext` that software reads -/
  | extRo
  deriving DecidableEq, Repr

def access : Reg → Access
  | clClintSet | clClintClear => .extWo
  | hwBarrier | l1dFlushStatus => .extRo
  | icachePrefetchEnable | spatzStatus => .wo
  | _ => .rw

theorem mem_all (r : Reg) : r ∈ all := by
  cases r <;> decide

theorem offset_injective : Function.Injective offset := by
  intro r r' h
  cases r <;> cases r' <;> first | rfl | exact absurd h (by decide)

end Reg

/-- `reg_req_t`, with addresses of `aw` bits. -/
structure RegReq (aw : Nat) where
  valid : Bool
  write : Bool
  addr : BitVec aw
  wdata : BitVec 32
  wstrb : BitVec 4
  deriving DecidableEq, Repr

/-- `reg_rsp_t`; `ready` is always set. -/
structure RegRsp where
  rdata : BitVec 32
  error : Bool
  deriving DecidableEq, Repr

/-- `hw2reg`: what the hardware writes into the registers, and what the external ones read. -/
structure Hw2Reg where
  d : (r : Reg) → BitVec r.width
  de : Reg → Bool

variable {aw : Nat}

namespace RegReq

variable (q : RegReq aw)

def regWe : Bool := q.valid && q.write

def regRe : Bool := q.valid && !q.write

/-- `reg_addr`: the offset in the block. -/
def regAddr : BitVec 7 := q.addr.setWidth 7

/-- `addr_hit`. -/
def addrHit (r : Reg) : Bool := decide (q.regAddr = r.offset)

def addrmiss : Bool := if q.regRe || q.regWe then !Reg.all.any q.addrHit else false

/-- `wr_err`: a byte the register needs is not enabled. -/
def wrErr : Bool := q.regWe && Reg.all.any fun r => q.addrHit r && decide (r.permit &&& ~~~q.wstrb ≠ 0)

def regError (devmode : Bool) : Bool := (devmode && q.addrmiss) || q.wrErr

/-- `<reg>_we`. -/
def we (devmode : Bool) (r : Reg) : Bool := q.addrHit r && q.regWe && !q.regError devmode

/-- `<reg>_wd`. -/
def wd (r : Reg) : BitVec r.width := q.wdata.setWidth r.width

end RegReq

/-- What the registers hold; nothing for those that store nothing. -/
abbrev RegFile : Type := (r : Reg) → BitVec r.width

namespace RegFile

def reset : RegFile := Reg.resval

variable (f : RegFile)

/-- `<reg>_qs`, as the read multiplexer extends it. -/
def qs (hw : Hw2Reg) (r : Reg) : BitVec 32 :=
  match r.access with
  | .rw => (f r).setWidth 32
  | .wo | .extWo => 0
  | .extRo => (hw.d r).setWidth 32

/-- `reg_rdata_next`. -/
def rdata (hw : Hw2Reg) (q : RegReq aw) : BitVec 32 :=
  match Reg.all.find? q.addrHit with
  | some r => f.qs hw r
  | none => BitVec.allOnes 32

def rsp (devmode : Bool) (hw : Hw2Reg) (q : RegReq aw) : RegRsp := ⟨f.rdata hw q, q.regError devmode⟩

/-- The registers after a cycle. -/
def next (R : PrimSubreg) (devmode : Bool) (hw : Hw2Reg) (q : RegReq aw) : RegFile := fun r =>
  match r.access with
  | .rw | .wo => R.nextQ (q.we devmode r) (q.wd r) (hw.de r) (hw.d r) (f r)
  | .extWo | .extRo => f r

end RegFile

/-! ## Decoding -/

/-- The register an access is to. -/
def RegReq.regAt (q : RegReq aw) : Option Reg := Reg.all.find? q.addrHit

theorem RegReq.regAddr_of_regAt {q : RegReq aw} {r : Reg} (h : q.regAt = some r) : q.regAddr = r.offset := by
  have hhit : q.addrHit r = true := List.find?_some h
  exact of_decide_eq_true hhit

/-- An address is that of one register at most (`en2addrHit`). -/
theorem RegReq.regAt_eq_some_iff {q : RegReq aw} {r : Reg} : q.regAt = some r ↔ q.regAddr = r.offset := by
  refine ⟨RegReq.regAddr_of_regAt, fun h => ?_⟩
  have hsome : q.regAt.isSome = true := List.find?_isSome.mpr ⟨r, r.mem_all, decide_eq_true h⟩
  obtain ⟨r', hr'⟩ := Option.isSome_iff_exists.mp hsome
  rw [hr', Reg.offset_injective ((RegReq.regAddr_of_regAt hr').symm.trans h)]

theorem RegReq.addrHit_iff {q : RegReq aw} {r : Reg} : q.addrHit r = true ↔ q.regAt = some r := by
  rw [RegReq.regAt_eq_some_iff, RegReq.addrHit, decide_eq_true_eq]

/-- The bytes register `r` needs are enabled. -/
def RegReq.enables (q : RegReq aw) (r : Reg) : Prop := r.permit &&& ~~~q.wstrb = 0

instance (q : RegReq aw) (r : Reg) : Decidable (q.enables r) := by
  unfold RegReq.enables
  infer_instance

theorem RegReq.wrErr_iff {q : RegReq aw} :
    q.wrErr = true ↔ q.valid = true ∧ q.write = true ∧ ∃ r, q.regAt = some r ∧ ¬ q.enables r := by
  simp only [RegReq.wrErr, RegReq.regWe, Bool.and_eq_true, List.any_eq_true, RegReq.addrHit_iff,
    decide_eq_true_eq, and_assoc]
  constructor
  · rintro ⟨hv, hw, r, _, hat, hne⟩
    exact ⟨hv, hw, r, hat, hne⟩
  · rintro ⟨hv, hw, r, hat, hne⟩
    exact ⟨hv, hw, r, r.mem_all, hat, hne⟩

/-- Outside the development mode only a write that leaves out a byte is refused. -/
theorem RegReq.regError_iff {q : RegReq aw} :
    q.regError false = true ↔ q.valid = true ∧ q.write = true ∧ ∃ r, q.regAt = some r ∧ ¬ q.enables r := by
  rw [RegReq.regError, Bool.false_and, Bool.false_or, RegReq.wrErr_iff]

theorem RegReq.we_iff {q : RegReq aw} {r : Reg} :
    q.we false r = true ↔ q.valid = true ∧ q.write = true ∧ q.regAt = some r ∧ q.enables r := by
  rw [RegReq.we, Bool.and_eq_true, Bool.and_eq_true, RegReq.addrHit_iff, Bool.not_eq_true',
    ← Bool.not_eq_true, RegReq.regError_iff, RegReq.regWe, Bool.and_eq_true]
  constructor
  · rintro ⟨⟨hat, hv, hw⟩, hok⟩
    exact ⟨hv, hw, hat, by_contra fun hno => hok ⟨hv, hw, r, hat, hno⟩⟩
  · rintro ⟨hv, hw, hat, hok⟩
    refine ⟨⟨hat, hv, hw⟩, ?_⟩
    rintro ⟨_, _, r', hat', hno⟩
    rw [hat] at hat'
    cases hat'
    exact hno hok

theorem RegFile.rdata_eq (f : RegFile) (hw : Hw2Reg) (q : RegReq aw) :
    f.rdata hw q = (q.regAt.map (f.qs hw)).getD (BitVec.allOnes 32) := by
  unfold RegFile.rdata RegReq.regAt
  cases Reg.all.find? q.addrHit <;> rfl

theorem RegFile.next_stored (f : RegFile) (R : PrimSubreg) (hw : Hw2Reg) (q : RegReq aw) {r : Reg}
    (hr : r.access = .rw ∨ r.access = .wo) :
    f.next R false hw q r = if q.we false r then q.wd r else if hw.de r then hw.d r else f r := by
  have hnext : f.next R false hw q r = R.nextQ (q.we false r) (q.wd r) (hw.de r) (hw.d r) (f r) := by
    unfold RegFile.next
    rcases hr with hr | hr <;> rw [hr]
  rw [hnext]
  cases q.we false r <;> cases hw.de r <;> simp

end Periph

end CachePool
