import CachePool.Flush.Partition
import CachePool.Interrupt
import CachePool.Periph.RegTop

/-!
# The peripheral on the register bus (`cachepool_peripheral`)

The whole peripheral: the register file, the configuration of the crossbar and of the scratchpad, the flush
controller and the wake-up bits, under arbitrary accesses of the register bus, also to addresses of no
register and with any bytes enabled.

* `Peripheral.next`, `machine` — a cycle, and the runs.
* `lastWrite` — the last write to a register that was not refused; `regs_run` — what a register that only
  software writes holds; `commit_run` — a commit bit is set for one cycle; `insnCommit_run` — that of the
  flush instruction waits for the locks.
* `registers_read_back` — what the bus answers after any run.
* `configuration_committed` — `xbar_offset_q` and `l1d_spm_size_q` are those of the last commit.
* `flush_run`, `clint_run`, `peripheral_parts` — the flush controller alone and the wake-up bits alone, on the
  accesses that are not refused, do what they do here.
-/

set_option autoImplicit false

namespace CachePool

namespace Periph

/-- One cycle's inputs: the access of the register bus, and `l1d_insn_ready_i`. -/
structure In (aw n : Nat) where
  req : RegReq aw
  insnReady : Fin n → Bool

/-- The registers and the flip-flops of the peripheral. -/
structure Peripheral (n : Nat) where
  regs : RegFile
  xbarOffsetQ : BitVec 5
  l1dSpmSizeQ : BitVec 10
  l1dPrivateQ : BitVec 4
  privateStartAddrQ : BitVec 32
  l1dLockQ : Fin n → Bool
  clClintQ : BitVec 32

variable {aw n : Nat}

namespace Peripheral

def reset : Peripheral n where
  regs := RegFile.reset
  xbarOffsetQ := 14
  l1dSpmSizeQ := 0
  l1dPrivateQ := 0
  privateStartAddrQ := 0xA0000000
  l1dLockQ := fun _ => false
  clClintQ := 0

variable (s : Peripheral n)

/-- `reg2hw.<reg>.q` of a register of one bit. -/
def bit (r : Reg) : Bool := (s.regs r).getLsbD 0

/-- `|l1d_lock_q`. -/
def locked : Bool := decide (∃ t, s.l1dLockQ t = true)

/-- `l1d_insn_valid_o`. -/
def l1dInsnValidO : Bool := s.bit .l1dInsnCommit && !s.locked

/-- `l1d_insn_o`. -/
def l1dInsnO : Flush.CacheInsn n :=
  if s.l1dInsnValidO then
    { insn := s.regs .cfgL1dInsn
      tileSel := Flush.tileSelOf (s.regs .cfgL1dInsn : BitVec 2) (s.regs .cfgL1dTileSel : BitVec 32) }
  else { insn := 0, tileSel := fun _ => false }

/-- `hw2reg`: a commit bit is cleared once it is taken. -/
def hw2reg : Hw2Reg where
  d
    | .l1dFlushStatus => if s.locked then 1#1 else 0#1
    | r => 0#r.width
  de
    | .xbarOffsetCommit => s.bit .xbarOffsetCommit
    | .l1dSpmCommit => s.bit .l1dSpmCommit
    | .l1dInsnCommit => s.l1dInsnValidO
    | _ => false

/-- The answer of the register bus; `devmode_i` is 0. -/
def rsp (q : RegReq aw) : RegRsp := s.regs.rsp false s.hw2reg q

def next (R : PrimSubreg) (x : In aw n) : Peripheral n where
  regs := s.regs.next R false s.hw2reg x.req
  xbarOffsetQ := if s.bit .xbarOffsetCommit then s.regs .xbarOffset else s.xbarOffsetQ
  l1dSpmSizeQ := if s.bit .l1dSpmCommit then s.regs .cfgL1dSpm else s.l1dSpmSizeQ
  l1dPrivateQ := if s.bit .l1dInsnCommit then s.regs .l1dPrivate else s.l1dPrivateQ
  privateStartAddrQ := if s.bit .l1dInsnCommit then s.regs .l1dAddr else s.privateStartAddrQ
  l1dLockQ t :=
    if x.insnReady t then false else if s.l1dInsnValidO then s.l1dInsnO.tileSel t else s.l1dLockQ t
  -- `qe` and `q` of the external registers are `we` and `wd` of the access
  clClintQ :=
    if x.req.we false .clClintSet then s.clClintQ ||| x.req.wdata
    else if x.req.we false .clClintClear then s.clClintQ &&& ~~~x.req.wdata
    else s.clClintQ

end Peripheral

def machine (R : PrimSubreg) (aw n : Nat) : Machine (Peripheral n) (In aw n) where
  init := Peripheral.reset
  next := fun s x => s.next R x

/-! ## What the registers hold -/

/-- The last write to register `r` that was not refused. -/
def lastWrite (r : Reg) (xs : List (In aw n)) : Option (BitVec 32) :=
  (xs.filter fun x => x.req.we false r).getLast?.map fun x => x.req.wdata

/-- What software has last written into register `r`, as far as the field is wide. -/
def written (r : Reg) (xs : List (In aw n)) : BitVec r.width :=
  ((lastWrite r xs).map fun w => w.setWidth r.width).getD r.resval

@[simp] theorem written_nil (r : Reg) : written r ([] : List (In aw n)) = r.resval := rfl

theorem written_concat (r : Reg) (xs : List (In aw n)) (x : In aw n) :
    written r (xs ++ [x]) = if x.req.we false r then x.req.wd r else written r xs := by
  unfold written lastWrite
  cases h : x.req.we false r <;> simp [h, RegReq.wd]

/-- The commit bits that are taken at once; that of the flush instruction waits for the locks. -/
def Reg.isCommit (r : Reg) : Prop := r = .xbarOffsetCommit ∨ r = .l1dSpmCommit

/-- A register that software alone writes. -/
def Reg.bySoftware (r : Reg) : Prop := (r.access = .rw ∨ r.access = .wo) ∧ ¬ r.isCommit ∧ r ≠ .l1dInsnCommit

theorem hw2reg_de_of_bySoftware {r : Reg} (hr : r.bySoftware) (s : Peripheral n) : s.hw2reg.de r = false := by
  obtain ⟨_, hcommit, hinsn⟩ := hr
  cases r <;>
    first
    | rfl
    | exact absurd rfl hinsn
    | exact absurd (.inl rfl) hcommit
    | exact absurd (.inr rfl) hcommit

variable (R : PrimSubreg)

theorem regs_run {r : Reg} (hr : r.bySoftware) (xs : List (In aw n)) :
    ((machine R aw n).run xs).regs r = written r xs := by
  induction xs using List.reverseRecOn with
  | nil => rfl
  | append_singleton xs x ih =>
    rw [Machine.run_concat, written_concat, ← ih]
    have hstored :=
      RegFile.next_stored ((machine R aw n).run xs).regs R ((machine R aw n).run xs).hw2reg x.req hr.1
    rw [hw2reg_de_of_bySoftware hr, if_neg Bool.false_ne_true] at hstored
    exact hstored

/-- The cycle writes a one into commit bit `c`. -/
def In.commits (x : In aw n) (c : Reg) : Bool := x.req.we false c && x.req.wdata.getLsbD 0

theorem bit_next_commit {c : Reg} (hc : c.isCommit) (s : Peripheral n) (x : In aw n) :
    (s.next R x).bit c = x.commits c := by
  have hde : s.hw2reg.de c = s.bit c := by rcases hc with rfl | rfl <;> rfl
  have hd : s.hw2reg.d c = 0#c.width := by rcases hc with rfl | rfl <;> rfl
  have hacc : c.access = .rw ∨ c.access = .wo := by rcases hc with rfl | rfl <;> exact .inl rfl
  have hwidth : 0 < c.width := by rcases hc with rfl | rfl <;> decide
  have hnext := RegFile.next_stored s.regs R s.hw2reg x.req hacc
  unfold Peripheral.bit In.commits
  rw [show (s.next R x).regs c = s.regs.next R false s.hw2reg x.req c from rfl, hnext, hde, hd]
  cases hwe : x.req.we false c with
  | true => simp [RegReq.wd, hwidth]
  | false =>
    cases hbit : s.bit c with
    | true => simp
    | false => simpa [Peripheral.bit] using hbit

/-- **A commit bit is set for one cycle**, the one after the write; after reset it is what it is reset to. -/
theorem commit_run {c : Reg} (hc : c.isCommit) (xs : List (In aw n)) :
    ((machine R aw n).run xs).bit c = (xs.getLast?.map fun x => x.commits c).getD (c.resval.getLsbD 0) := by
  induction xs using List.reverseRecOn with
  | nil => rfl
  | append_singleton xs x _ =>
    rw [Machine.run_concat, List.getLast?_concat]
    exact bit_next_commit R hc ((machine R aw n).run xs) x

/-- A one written into the commit bit of the flush instruction that has not been taken: since that write, `y`,
there has been no other, and a lock bit has been set in every cycle. -/
def InsnWaiting (xs : List (In aw n)) : Prop :=
  ∃ pre y mid, xs = pre ++ y :: mid ∧ y.commits .l1dInsnCommit = true ∧
    (∀ z ∈ mid, z.req.we false .l1dInsnCommit = false) ∧
    ∀ before z after, mid = before ++ z :: after →
      ((machine R aw n).run (pre ++ y :: before)).locked = true

theorem not_insnWaiting_nil : ¬ InsnWaiting R ([] : List (In aw n)) := by
  rintro ⟨pre, y, mid, hsplit, _⟩
  simp at hsplit

theorem insnWaiting_concat_write {x : In aw n} (hwe : x.req.we false .l1dInsnCommit = true)
    (xs : List (In aw n)) : InsnWaiting R (xs ++ [x]) ↔ x.commits .l1dInsnCommit = true := by
  constructor
  · rintro ⟨pre, y, mid, hsplit, hy, hno, _⟩
    rcases mid.eq_nil_or_concat' with rfl | ⟨mid, z, rfl⟩
    · obtain ⟨_, hlast⟩ := List.append_inj' hsplit rfl
      rw [List.singleton_inj.mp hlast]
      exact hy
    · have hlast : x = z := by
        rw [← List.cons_append, ← List.append_assoc] at hsplit
        exact List.singleton_inj.mp (List.append_inj' hsplit rfl).2
      rw [hlast, hno z (by simp)] at hwe
      exact absurd hwe Bool.false_ne_true
  · intro hx
    exact ⟨xs, x, [], rfl, hx, by simp, fun before z after h => by simp at h⟩

theorem insnWaiting_concat_other {x : In aw n} (hwe : x.req.we false .l1dInsnCommit = false)
    (xs : List (In aw n)) :
    InsnWaiting R (xs ++ [x]) ↔ InsnWaiting R xs ∧ ((machine R aw n).run xs).locked = true := by
  constructor
  · rintro ⟨pre, y, mid, hsplit, hy, hno, hlock⟩
    rcases mid.eq_nil_or_concat' with rfl | ⟨mid, z, rfl⟩
    · have hlast : x = y := List.singleton_inj.mp (List.append_inj' hsplit rfl).2
      rw [← hlast, In.commits, hwe, Bool.false_and] at hy
      exact absurd hy Bool.false_ne_true
    · rw [← List.cons_append, ← List.append_assoc] at hsplit
      have hxs : xs = pre ++ y :: mid := (List.append_inj' hsplit rfl).1
      refine ⟨⟨pre, y, mid, hxs, hy, fun w hw => hno w (by simp [hw]), ?_⟩, ?_⟩
      · intro before w after hmid
        exact hlock before w (after ++ [z]) (by simp [hmid])
      · rw [hxs]
        exact hlock mid z [] rfl
  · rintro ⟨⟨pre, y, mid, rfl, hy, hno, hlock⟩, hnow⟩
    refine ⟨pre, y, mid ++ [x], by simp, hy, fun w hw => ?_, fun before w after hmid => ?_⟩
    · rcases List.mem_append.mp hw with hw | hw
      · exact hno w hw
      · rw [List.mem_singleton.mp hw, hwe]
    · rcases after.eq_nil_or_concat' with rfl | ⟨after, v, rfl⟩
      · rw [← (List.append_inj' hmid rfl).1]
        exact hnow
      · rw [← List.cons_append, ← List.append_assoc] at hmid
        exact hlock before w after (List.append_inj' hmid rfl).1

theorem bit_next_insnCommit (s : Peripheral n) (x : In aw n) :
    (s.next R x).bit .l1dInsnCommit =
      if x.req.we false .l1dInsnCommit then x.commits .l1dInsnCommit
      else s.bit .l1dInsnCommit && s.locked := by
  have hnext := RegFile.next_stored s.regs R s.hw2reg x.req (r := .l1dInsnCommit) (.inl rfl)
  unfold Peripheral.bit In.commits
  have hregs : (s.next R x).regs .l1dInsnCommit = s.regs.next R false s.hw2reg x.req .l1dInsnCommit := rfl
  rw [hregs, hnext]
  cases hwe : x.req.we false .l1dInsnCommit with
  | true => simp [RegReq.wd, Reg.width]
  | false =>
    rw [if_neg Bool.false_ne_true, if_neg Bool.false_ne_true]
    have hde : s.hw2reg.de .l1dInsnCommit = (s.bit .l1dInsnCommit && !s.locked) := rfl
    have hd : s.hw2reg.d .l1dInsnCommit = 0#1 := rfl
    rw [hde, hd]
    cases hlock : s.locked with
    | true => simp
    | false =>
      cases hbit : s.bit .l1dInsnCommit with
      | true => simp
      | false => simpa [Peripheral.bit] using hbit

/-- **The commit bit of the flush instruction waits while a lock bit is set**, and is taken in the first cycle
without. -/
theorem insnCommit_run (xs : List (In aw n)) :
    ((machine R aw n).run xs).bit .l1dInsnCommit = true ↔ InsnWaiting R xs := by
  induction xs using List.reverseRecOn with
  | nil =>
    have hreset : ((machine R aw n).run []).bit .l1dInsnCommit = false :=
      show (Reg.resval .l1dInsnCommit).getLsbD 0 = false by decide
    rw [hreset]
    exact iff_of_false Bool.false_ne_true (not_insnWaiting_nil R)
  | append_singleton xs x ih =>
    have hstep := bit_next_insnCommit R ((machine R aw n).run xs) x
    rw [Machine.run_concat]
    refine Iff.trans (iff_of_eq (congrArg (· = true) hstep)) ?_
    cases hwe : x.req.we false .l1dInsnCommit with
    | true => exact (insnWaiting_concat_write R hwe xs).symm
    | false =>
      rw [if_neg Bool.false_ne_true, Bool.and_eq_true, ih]
      exact (insnWaiting_concat_other R hwe xs).symm

/-! ## What the bus answers -/

/-- A register of which software reads nothing. -/
def Reg.readsZero (r : Reg) : Prop := r.access = .wo ∨ r.access = .extWo ∨ r = .hwBarrier

theorem qs_of_readsZero {r : Reg} (hr : r.readsZero) (s : Peripheral n) : s.regs.qs s.hw2reg r = 0 := by
  rcases hr with hr | hr | rfl
  · unfold RegFile.qs
    rw [hr]
  · unfold RegFile.qs
    rw [hr]
  · rfl

theorem qs_of_rw {r : Reg} (hr : r.access = .rw) (s : Peripheral n) :
    s.regs.qs s.hw2reg r = (s.regs r).setWidth 32 := by
  unfold RegFile.qs
  rw [hr]

theorem setWidth_one (v : BitVec 1) : v.setWidth 32 = if v.getLsbD 0 then 1#32 else 0#32 := by
  revert v
  decide

theorem setWidth_of_commit {c : Reg} (hc : c.isCommit) (s : Peripheral n) :
    (s.regs c).setWidth 32 = if s.bit c then 1#32 else 0#32 := by
  rcases hc with rfl | rfl
  · exact setWidth_one _
  · exact setWidth_one _

/-- **What the bus answers after any run.**  Refused are the writes to a register that leave out a byte it
needs, and no others.  An address of no register reads all ones.  A register that only software writes reads
what the last write that was not refused has put into its field, whatever else the bus has done since, or its
reset value; the registers software cannot read read 0.  The commit bits of the crossbar and of the scratchpad
read 1 exactly in the cycle after a one was written into them, that of the scratchpad, which is reset to one,
also in the first; that of the flush instruction from that cycle on until one without a lock bit has passed,
or until it is overwritten. -/
theorem registers_read_back (xs : List (In aw n)) (q : RegReq aw) :
    ((((machine R aw n).run xs).rsp q).error = true ↔
      q.valid = true ∧ q.write = true ∧ ∃ r, q.regAt = some r ∧ ¬ q.enables r) ∧
    (q.regAt = none → (((machine R aw n).run xs).rsp q).rdata = BitVec.allOnes 32) ∧
    ∀ r, q.regAt = some r →
      (r.access = .rw → r.bySoftware → (((machine R aw n).run xs).rsp q).rdata = (written r xs).setWidth 32) ∧
      (r.readsZero → (((machine R aw n).run xs).rsp q).rdata = 0) ∧
      (r.isCommit → (((machine R aw n).run xs).rsp q).rdata =
        if (xs.getLast?.map fun x => x.commits r).getD (r.resval.getLsbD 0) then 1#32 else 0#32) ∧
      (r = .l1dInsnCommit →
        ((((machine R aw n).run xs).rsp q).rdata = 1 ∧ InsnWaiting R xs) ∨
          ((((machine R aw n).run xs).rsp q).rdata = 0 ∧ ¬ InsnWaiting R xs)) := by
  have hread := ((machine R aw n).run xs).regs.rdata_eq ((machine R aw n).run xs).hw2reg q
  refine ⟨RegReq.regError_iff, fun hnone => ?_, fun r hat => ?_⟩
  · rw [hnone] at hread
    exact hread
  · rw [hat] at hread
    refine ⟨fun hrw hsoft => ?_, fun hzero => ?_, fun hcommit => ?_, fun hinsn => ?_⟩
    · rw [← regs_run R hsoft xs, ← qs_of_rw hrw]
      exact hread
    · rw [← qs_of_readsZero hzero ((machine R aw n).run xs)]
      exact hread
    · have hrw : r.access = .rw := by rcases hcommit with rfl | rfl <;> rfl
      rw [← commit_run R hcommit xs, ← setWidth_of_commit hcommit, ← qs_of_rw hrw]
      exact hread
    · subst hinsn
      have hvalue := hread.trans (qs_of_rw (r := .l1dInsnCommit) rfl ((machine R aw n).run xs))
      by_cases hwait : InsnWaiting R xs
      · refine .inl ⟨?_, hwait⟩
        have hbit := (insnCommit_run R xs).mpr hwait
        exact hvalue.trans ((setWidth_one _).trans (if_pos hbit))
      · refine .inr ⟨?_, hwait⟩
        have hbit : ¬ ((machine R aw n).run xs).bit .l1dInsnCommit = true :=
          fun h => hwait ((insnCommit_run R xs).mp h)
        exact hvalue.trans ((setWidth_one _).trans (if_neg hbit))

/-! ## The configuration -/

/-- A flip-flop that takes register `r` when commit bit `c` is set. -/
def Takes (aw : Nat) {r : Reg} (out : Peripheral n → BitVec r.width) (c : Reg) : Prop :=
  ∀ (s : Peripheral n) (x : In aw n), out (s.next R x) = if s.bit c then s.regs r else out s

variable {R} {r c : Reg} {out : Peripheral n → BitVec r.width}

/-- A write to the commit bit is not one to the register. -/
theorem written_concat_commits (hr : r.bySoftware) (hc : c.isCommit) (pre : List (In aw n)) {y : In aw n}
    (hy : y.commits c = true) : written r (pre ++ [y]) = written r pre := by
  rw [written_concat, if_neg]
  intro hwe
  obtain ⟨_, _, hat, _⟩ := RegReq.we_iff.mp hwe
  obtain ⟨_, _, hat', _⟩ := RegReq.we_iff.mp (Bool.and_eq_true_iff.mp hy).1
  rw [hat] at hat'
  cases hat'
  exact hr.2.1 hc

/-- **A commit** is taken one cycle later, with what the register held, and is there until the next one is. -/
theorem Takes.run_commit (h : Takes R aw out c) (hr : r.bySoftware) (hc : c.isCommit) (pre : List (In aw n))
    {y : In aw n} (hy : y.commits c = true) {mid : List (In aw n)} (hmid : ∀ z ∈ mid, z.commits c = false)
    (x : In aw n) : out ((machine R aw n).run (pre ++ y :: (mid ++ [x]))) = written r pre := by
  induction mid using List.reverseRecOn generalizing x with
  | nil =>
    have hbit := commit_run R hc (pre ++ [y])
    rw [List.getLast?_concat, Option.map_some, Option.getD_some, hy] at hbit
    have hstep := h ((machine R aw n).run (pre ++ [y])) x
    rw [if_pos hbit, regs_run R hr, written_concat_commits hr hc pre hy] at hstep
    have hsplit : pre ++ y :: ([] ++ [x]) = pre ++ [y] ++ [x] := by simp
    rw [hsplit, Machine.run_concat]
    exact hstep
  | append_singleton mid z ih =>
    have hbit := commit_run R hc (pre ++ y :: (mid ++ [z]))
    have hlast : (pre ++ y :: (mid ++ [z])).getLast? = some z := by
      rw [← List.cons_append, ← List.append_assoc, List.getLast?_concat]
    rw [hlast, Option.map_some, Option.getD_some, hmid z (by simp)] at hbit
    have hstep := h ((machine R aw n).run (pre ++ y :: (mid ++ [z]))) x
    rw [hbit, if_neg Bool.false_ne_true, ih (fun w hw => hmid w (by simp [hw])) z] at hstep
    have hsplit : pre ++ y :: (mid ++ [z] ++ [x]) = pre ++ y :: (mid ++ [z]) ++ [x] := by simp
    rw [hsplit, Machine.run_concat]
    exact hstep

/-- Before the first commit: the reset value, or the register's one if the commit bit is reset to one. -/
theorem Takes.run_none (h : Takes R aw out c) (hr : r.bySoftware) (hc : c.isCommit) {mid : List (In aw n)}
    (hmid : ∀ z ∈ mid, z.commits c = false) (x : In aw n) :
    out ((machine R aw n).run (mid ++ [x])) =
      if c.resval.getLsbD 0 then r.resval else out Peripheral.reset := by
  induction mid using List.reverseRecOn generalizing x with
  | nil =>
    have hbit := commit_run R hc ([] : List (In aw n))
    have hstep := h Peripheral.reset x
    rw [show Peripheral.reset = (machine R aw n).run [] from rfl, hbit, regs_run R hr] at hstep
    rw [Machine.run_concat]
    exact hstep
  | append_singleton mid z ih =>
    have hbit := commit_run R hc (mid ++ [z])
    rw [List.getLast?_concat, Option.map_some, Option.getD_some, hmid z (by simp)] at hbit
    have hstep := h ((machine R aw n).run (mid ++ [z])) x
    rw [hbit, if_neg Bool.false_ne_true, ih (fun w hw => hmid w (by simp [hw])) z] at hstep
    rw [Machine.run_concat]
    exact hstep

theorem takes_xbarOffset (R : PrimSubreg) :
    Takes R aw (r := .xbarOffset) (fun s : Peripheral n => s.xbarOffsetQ) .xbarOffsetCommit :=
  fun _ _ => rfl

theorem takes_spmSize (R : PrimSubreg) :
    Takes R aw (r := .cfgL1dSpm) (fun s : Peripheral n => s.l1dSpmSizeQ) .l1dSpmCommit :=
  fun _ _ => rfl

theorem bySoftware_xbarOffset : Reg.bySoftware .xbarOffset := by
  refine ⟨.inl rfl, ?_, by decide⟩
  rintro (h | h) <;> cases h

theorem bySoftware_cfgL1dSpm : Reg.bySoftware .cfgL1dSpm := by
  refine ⟨.inl rfl, ?_, by decide⟩
  rintro (h | h) <;> cases h

/-- **The configuration is that of the last commit.**  One cycle after a one is written into the commit bit
`xbar_offset_q` holds the offset, and `l1d_spm_size_q` the size, that was last written before, and holds it
until one cycle after the next such write, whatever the bus does in the mean time.  Before the first the
offset is 14; the size is 0x20 from the first cycle on, since that commit bit is reset to one. -/
theorem configuration_committed (R : PrimSubreg) (aw n : Nat) :
    (∀ (pre mid : List (In aw n)) (y x : In aw n), y.commits .xbarOffsetCommit = true →
      (∀ z ∈ mid, z.commits .xbarOffsetCommit = false) →
      ((machine R aw n).run (pre ++ y :: (mid ++ [x]))).xbarOffsetQ = written .xbarOffset pre) ∧
    (∀ (mid : List (In aw n)) (x : In aw n), (∀ z ∈ mid, z.commits .xbarOffsetCommit = false) →
      ((machine R aw n).run (mid ++ [x])).xbarOffsetQ = 14) ∧
    (∀ (pre mid : List (In aw n)) (y x : In aw n), y.commits .l1dSpmCommit = true →
      (∀ z ∈ mid, z.commits .l1dSpmCommit = false) →
      ((machine R aw n).run (pre ++ y :: (mid ++ [x]))).l1dSpmSizeQ = written .cfgL1dSpm pre) ∧
    ∀ (mid : List (In aw n)) (x : In aw n), (∀ z ∈ mid, z.commits .l1dSpmCommit = false) →
      ((machine R aw n).run (mid ++ [x])).l1dSpmSizeQ = 0x20 := by
  refine ⟨fun pre mid y x hy hmid => ?_, fun mid x hmid => ?_, fun pre mid y x hy hmid => ?_,
    fun mid x hmid => ?_⟩
  · exact (takes_xbarOffset R).run_commit bySoftware_xbarOffset (.inl rfl) pre hy hmid x
  · exact (takes_xbarOffset R).run_none bySoftware_xbarOffset (.inl rfl) hmid x
  · exact (takes_spmSize R).run_commit bySoftware_cfgL1dSpm (.inr rfl) pre hy hmid x
  · exact (takes_spmSize R).run_none bySoftware_cfgL1dSpm (.inr rfl) hmid x

/-! ## The parts -/

/-- The register of the flush controller. -/
def Reg.flush : Reg → Option Flush.Reg
  | .cfgL1dInsn => some .cfgL1dInsn
  | .cfgL1dTileSel => some .cfgL1dTileSel
  | .l1dInsnCommit => some .l1dInsnCommit
  | .l1dFlushStatus => some .l1dFlushStatus
  | .l1dPrivate => some .l1dPrivate
  | .l1dAddr => some .l1dAddr
  | _ => none

theorem Reg.flush_injective {r r' : Reg} {f : Flush.Reg} (h : r.flush = some f) (h' : r'.flush = some f) :
    r = r' := by
  cases r <;> cases r' <;> first | rfl | (cases h <;> cases h')

/-- The access as the flush controller sees it, if it is to one of its registers and not refused. -/
def RegReq.flush (q : RegReq aw) : Option Flush.RegReq :=
  if q.valid && !q.regError false then (q.regAt.bind Reg.flush).map fun r => ⟨r, q.write, q.wdata⟩ else none

theorem regWe_flush (q : RegReq aw) {r : Reg} {f : Flush.Reg} (hf : r.flush = some f) :
    Flush.regWe q.flush f = q.we false r := by
  unfold RegReq.flush RegReq.we
  cases hv : q.valid && !q.regError false with
  | false =>
    have hno : (q.regWe && !q.regError false) = false := by
      cases hval : q.valid
      · simp [RegReq.regWe, hval]
      · have herr : q.regError false = true := by simpa [hval] using hv
        simp [herr]
    rw [Bool.and_assoc, hno]
    simp [Flush.regWe]
  | true =>
    obtain ⟨hval, herr⟩ := Bool.and_eq_true_iff.mp hv
    rw [if_pos rfl, herr, Bool.and_true]
    rcases hat : q.regAt with _ | r'
    · have hmiss : q.addrHit r = false := by
        rw [← Bool.not_eq_true, RegReq.addrHit_iff, hat]
        simp
      simp [Flush.regWe, hmiss]
    · by_cases hr : r' = r
      · subst hr
        have hhit : q.addrHit r' = true := RegReq.addrHit_iff.mpr hat
        simp [Flush.regWe, RegReq.regWe, hhit, hval, hf]
      · have hmiss : q.addrHit r = false := by
          rw [← Bool.not_eq_true, RegReq.addrHit_iff, hat]
          simpa using hr
        rw [hmiss, Bool.false_and, Option.bind_some]
        rcases hf' : r'.flush with _ | f'
        · rfl
        · have hne : f' ≠ f := by
            rintro rfl
            exact hr (Reg.flush_injective hf' hf)
          simp [Flush.regWe, hne]

theorem regWdata_flush {q : RegReq aw} {r : Reg} {f : Flush.Reg} (hf : r.flush = some f)
    (hwe : q.we false r = true) : Flush.regWdata q.flush = q.wdata := by
  obtain ⟨hval, _, hat, _⟩ := RegReq.we_iff.mp hwe
  have herr : (!q.regError false) = true := (Bool.and_eq_true_iff.mp hwe).2
  unfold RegReq.flush
  rw [hval, herr, hat, Bool.and_self, if_pos rfl, Option.bind_some, hf]
  rfl

/-- The written data only matter where there is a write. -/
theorem nextQ_congr (R : PrimSubreg) {α : Type} {we de : Bool} {wd wd' d q : α} (h : we = true → wd = wd') :
    R.nextQ we wd de d q = R.nextQ we wd' de d q := by
  cases hwe : we with
  | true => rw [h hwe]
  | false => cases de <;> simp

theorem nextQ_map (R : PrimSubreg) {α β : Type} (f : α → β) (we de : Bool) (wd d q : α) :
    f (R.nextQ we wd de d q) = R.nextQ we (f wd) de (f d) (f q) := by
  cases we <;> cases de <;> simp

/-- The flush controller within the peripheral. -/
def Peripheral.flush (s : Peripheral n) : Flush.Peripheral n where
  cfgL1dInsn := s.regs .cfgL1dInsn
  cfgL1dTileSel := s.regs .cfgL1dTileSel
  l1dInsnCommit := s.bit .l1dInsnCommit
  l1dPrivate := s.regs .l1dPrivate
  l1dAddr := s.regs .l1dAddr
  l1dPrivateQ := s.l1dPrivateQ
  privateStartAddrQ := s.privateStartAddrQ
  l1dLockQ := s.l1dLockQ

def In.flush (x : In aw n) : Flush.Peripheral.In n := ⟨x.req.flush, x.insnReady⟩

theorem flush_next (R : PrimSubreg) (s : Peripheral n) (x : In aw n) :
    (s.next R x).flush = s.flush.next R x.req.flush x.insnReady := by
  have hreg : ∀ {r : Reg} {f : Flush.Reg}, r.flush = some f → ∀ q : BitVec r.width,
      R.nextQ (x.req.we false r) (x.req.wd r) false 0 q =
        R.nextQ (Flush.regWe x.req.flush f) ((Flush.regWdata x.req.flush).setWidth r.width) false 0 q := by
    intro r f hf q
    rw [regWe_flush x.req hf]
    exact nextQ_congr R fun hwe => by rw [regWdata_flush hf hwe, RegReq.wd]
  have hcommit : (s.next R x).bit .l1dInsnCommit =
      R.nextQ (Flush.regWe x.req.flush .l1dInsnCommit) ((Flush.regWdata x.req.flush).getLsbD 0)
        s.l1dInsnValidO false (s.bit .l1dInsnCommit) := by
    have hmap := nextQ_map R (fun v : BitVec 1 => v.getLsbD 0) (x.req.we false .l1dInsnCommit) s.l1dInsnValidO
      (x.req.wd .l1dInsnCommit) 0#1 (s.regs .l1dInsnCommit)
    rw [regWe_flush x.req (r := .l1dInsnCommit) rfl]
    refine hmap.trans (nextQ_congr R fun hwe => ?_)
    rw [regWdata_flush (r := .l1dInsnCommit) rfl hwe]
    simp [RegReq.wd, Reg.width]
  unfold Peripheral.flush Flush.Peripheral.next
  refine (Flush.Peripheral.mk.injEq ..).mpr
    ⟨hreg (r := .cfgL1dInsn) rfl _, ?_, hcommit, hreg (r := .l1dPrivate) rfl _, ?_, rfl, rfl, rfl⟩
  · refine (hreg (r := .cfgL1dTileSel) rfl (s.regs .cfgL1dTileSel)).trans ?_
    exact congrArg (fun wd => R.nextQ _ wd false 0 (s.regs .cfgL1dTileSel)) (BitVec.setWidth_eq _)
  · refine (hreg (r := .l1dAddr) rfl (s.regs .l1dAddr)).trans ?_
    exact congrArg (fun wd => R.nextQ _ wd false 0 (s.regs .l1dAddr)) (BitVec.setWidth_eq _)

theorem flush_reset : (Peripheral.reset : Peripheral n).flush = Flush.Peripheral.reset :=
  (Flush.Peripheral.mk.injEq ..).mpr ⟨rfl, rfl, show (Reg.resval .l1dInsnCommit).getLsbD 0 = false by decide,
    rfl, rfl, rfl, rfl, rfl⟩

theorem flush_run (R : PrimSubreg) (xs : List (In aw n)) :
    ((machine R aw n).run xs).flush = (Flush.Peripheral.machine R n).run (xs.map In.flush) := by
  induction xs using List.reverseRecOn with
  | nil => exact flush_reset
  | append_singleton xs x ih =>
    rw [Machine.run_concat, List.map_append, List.map_singleton, Machine.run_concat, ← ih]
    exact flush_next R _ x

/-- A write that is not refused: the offset and the data. -/
def In.write (x : In aw n) : Option (Nat × BitVec 32) :=
  x.req.regAt.bind fun r => if x.req.we false r then some (r.offset.toNat, x.req.wdata) else none

theorem clint_next (R : PrimSubreg) (s : Peripheral n) (x : In aw n) :
    (s.next R x).clClintQ = x.write.elim s.clClintQ fun w => regWrite s.clClintQ w.1 w.2 := by
  have hone : ∀ {r r' : Reg}, x.req.regAt = some r → r' ≠ r → x.req.we false r' = false := by
    intro r r' hat hne
    rw [← Bool.not_eq_true, RegReq.we_iff]
    rintro ⟨_, _, hat', _⟩
    rw [hat] at hat'
    exact hne (Option.some.inj hat').symm
  unfold Peripheral.next In.write
  dsimp only
  rcases hat : x.req.regAt with _ | r
  · have hnone : ∀ r', x.req.we false r' = false := by
      intro r'
      rw [← Bool.not_eq_true, RegReq.we_iff, hat]
      simp
    simp [hnone]
  · cases hwe : x.req.we false r with
    | false =>
      have hnone : ∀ r', x.req.we false r' = false := by
        intro r'
        by_cases hr : r' = r
        · rw [hr, hwe]
        · exact hone hat hr
      simp [hnone]
    | true =>
      have hset : Reg.clClintSet ≠ r → x.req.we false .clClintSet = false := hone hat
      have hclear : Reg.clClintClear ≠ r → x.req.we false .clClintClear = false := hone hat
      rw [Option.bind_some, if_pos hwe, Option.elim_some]
      cases r <;>
        first
        | (rw [if_pos hwe]; rfl)
        | (rw [hset (by decide), if_neg Bool.false_ne_true, if_pos hwe]; rfl)
        | (rw [hset (by decide), hclear (by decide), if_neg Bool.false_ne_true, if_neg Bool.false_ne_true]
           rfl)

theorem clint_run (R : PrimSubreg) (xs : List (In aw n)) :
    ((machine R aw n).run xs).clClintQ =
      (xs.filterMap In.write).foldl (fun clint w => regWrite clint w.1 w.2) 0 := by
  induction xs using List.reverseRecOn with
  | nil => rfl
  | append_singleton xs x ih =>
    rw [Machine.run_concat, List.filterMap_append, List.foldl_append, ← ih]
    refine (clint_next R _ x).trans ?_
    cases hw : x.write <;> simp [hw]

/-- **The parts of the peripheral.**  After every run the flush controller is where it is alone under the
accesses to its registers that are not refused, and the wake-up bits are those the writes that are not refused
leave, each applied at its offset. -/
theorem peripheral_parts (R : PrimSubreg) (xs : List (In aw n)) :
    ((machine R aw n).run xs).flush = (Flush.Peripheral.machine R n).run (xs.map In.flush) ∧
      ((machine R aw n).run xs).clClintQ =
        (xs.filterMap In.write).foldl (fun clint w => regWrite clint w.1 w.2) 0 :=
  ⟨flush_run R xs, clint_run R xs⟩

end Periph

end CachePool
