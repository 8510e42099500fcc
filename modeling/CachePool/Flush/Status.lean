import CachePool.Flush.System

/-!
# The flush status register

`l1d_flush_status` shows whether a lock bit is set; software polls it (`l1d_wait`) and goes on when it
reads zero.  A commit passes from the commit register to the lock bits and from there to the tiles.  It is
lost if the commit register is written while it waits behind a lock, and becomes another one if the operand
registers are.

* `Log`, `logged` — the flush hardware with the instructions software has committed.
* `AllDone` — nothing is left of any commit: each has been issued as it was committed, and has finished.
* `NoneLost`, `IssuedAsCommitted`, `KeepsCommits` — what a cycle must do for that.
* `allDone_iff` — with all locks clear it is the commit bit being clear and every cycle so far having kept
  the commits.
* `status_idle_sound_iff` — the reads that return zero too early are those of the cycle in which an
  instruction is issued, and those after a cycle that has not kept a commit.
-/

set_option autoImplicit false

namespace CachePool

namespace Flush

/-- The flush hardware, and the instructions committed so far, each with its operands at the commit. -/
structure Log (n m : Nat) where
  sys : Sys n m
  committed : List (CacheInsn n)

variable {n m : Nat}

/-- The instruction a cycle commits: the commit register is written with a one. -/
def Sys.commits (s : Sys n m) (x : Cycle n m) : Option (CacheInsn n) :=
  if regWe x.req .l1dInsnCommit && (regWdata x.req).getLsbD 0 then some s.periph.operands else none

def logged (R : PrimSubreg) (n m : Nat) : Machine (Log n m) (Cycle n m) where
  init := ⟨Sys.reset, []⟩
  next := fun s x => ⟨s.sys.next x R, s.committed ++ (s.sys.commits x).toList⟩

namespace Log

open Sys

/-- Every instruction committed so far has been issued with the operands it was committed with, executed by
the controllers it selects and reported by its tiles. -/
structure AllDone (s : Log n m) : Prop where
  issued_eq : s.sys.issued.map Issue.insn = s.committed
  tiles_idle : ∀ t, (s.sys.tile t).flushPendingQ = false
  finished_eq : ∀ t cb, s.sys.finished t cb = (s.sys.issued.filter (·.selects t cb)).length
  pulses_eq : ∀ t, s.sys.pulses t = (s.sys.issued.filter (·.insn.tileSel t)).length

/-- The status bit a bus read returns. -/
def flushStatus (s : Log n m) : BitVec 32 := if s.sys.periph.locked then 1 else 0

/-- The cycle reads the status register and gets zero. -/
def ReadsIdle (s : Log n m) (x : Cycle n m) : Prop :=
  regRe x.req .l1dFlushStatus = true ∧ s.flushStatus = 0

/-- The commit register is not written while a commit waits in it behind a lock. -/
def NoneLost (s : Log n m) (x : Cycle n m) : Prop :=
  s.sys.periph.l1dInsnCommit = true → s.sys.periph.locked = true → regWe x.req .l1dInsnCommit = false

/-- The instruction issued in this cycle, if one is, is the one that was committed last. -/
def IssuedAsCommitted (s : Log n m) : Prop :=
  s.sys.periph.l1dInsnValidO = true → s.committed.getLast? = some s.sys.periph.operands

/-- No commit is lost in this cycle, and none is issued as another. -/
def KeepsCommits (s : Log n m) (x : Cycle n m) : Prop := s.NoneLost x ∧ s.IssuedAsCommitted

instance (s : Log n m) (x : Cycle n m) : Decidable (s.KeepsCommits x) := by
  unfold KeepsCommits NoneLost IssuedAsCommitted
  exact inferInstance

variable {s : Log n m} {R : PrimSubreg}

theorem flushStatus_eq_zero_iff : s.flushStatus = 0 ↔ s.sys.periph.locked = false := by
  unfold flushStatus
  cases s.sys.periph.locked
  · exact ⟨fun _ => rfl, fun _ => rfl⟩
  · constructor <;> intro h <;> cases h

theorem sys_run (xs : List (Cycle n m)) : ((logged R n m).run xs).sys = (machine R n m).run xs := by
  induction xs using List.reverseRecOn with
  | nil => rfl
  | append_singleton xs x ih =>
    rw [Machine.run_concat, Machine.run_concat, ← ih]
    rfl

/-! ## Commits and issues -/

/-- The cycle overwrites a commit that waits behind a lock. -/
def loses (s : Log n m) (x : Cycle n m) : Bool :=
  s.sys.periph.l1dInsnCommit && s.sys.periph.locked && regWe x.req .l1dInsnCommit

theorem noneLost_iff {x : Cycle n m} : s.NoneLost x ↔ s.loses x = false := by
  unfold NoneLost loses
  cases s.sys.periph.l1dInsnCommit <;> cases s.sys.periph.locked <;> simp

/-- What a cycle does to the numbers of commits and issues: only a lost commit makes a difference. -/
theorem committed_length_next (s : Log n m) (x : Cycle n m) :
    ((logged R n m).next s x).committed.length + s.sys.issued.length + s.sys.periph.l1dInsnCommit.toNat =
      s.committed.length + ((logged R n m).next s x).sys.issued.length +
        ((logged R n m).next s x).sys.periph.l1dInsnCommit.toNat + (s.loses x).toNat := by
  have hbit : ((logged R n m).next s x).sys.periph.l1dInsnCommit =
      if regWe x.req .l1dInsnCommit then (regWdata x.req).getLsbD 0
      else s.sys.periph.l1dInsnCommit && s.sys.periph.locked :=
    Peripheral.next_l1dInsnCommit R x.req (s.sys.insnReady x)
  have hissued : ((logged R n m).next s x).sys.issued.length =
      s.sys.issued.length + (s.sys.periph.l1dInsnCommit && !s.sys.periph.locked).toNat := by
    show (if s.sys.periph.l1dInsnValidO then s.sys.issued ++ [s.sys.issue] else s.sys.issued).length = _
    unfold Peripheral.l1dInsnValidO
    cases s.sys.periph.l1dInsnCommit <;> cases s.sys.periph.locked <;> simp
  have hcommitted : ((logged R n m).next s x).committed.length =
      s.committed.length + (regWe x.req .l1dInsnCommit && (regWdata x.req).getLsbD 0).toNat := by
    show (s.committed ++ (s.sys.commits x).toList).length = _
    unfold Sys.commits
    cases regWe x.req .l1dInsnCommit && (regWdata x.req).getLsbD 0 <;> simp
  rw [hbit, hissued, hcommitted, loses]
  cases regWe x.req .l1dInsnCommit <;> cases (regWdata x.req).getLsbD 0 <;>
    cases s.sys.periph.l1dInsnCommit <;> cases s.sys.periph.locked <;> simp <;> omega

/-- **As many issues as commits**, but for the one in the register, unless one was lost. -/
theorem committed_length (xs : List (Cycle n m)) :
    ((logged R n m).run xs).sys.issued.length + ((logged R n m).run xs).sys.periph.l1dInsnCommit.toNat ≤
        ((logged R n m).run xs).committed.length ∧
      ((logged R n m).Meets NoneLost xs ↔ ((logged R n m).run xs).committed.length =
        ((logged R n m).run xs).sys.issued.length +
          ((logged R n m).run xs).sys.periph.l1dInsnCommit.toNat) := by
  induction xs using List.reverseRecOn with
  | nil => exact ⟨Nat.le_refl 0, fun _ => rfl, fun _ => Machine.Meets.nil NoneLost⟩
  | append_singleton xs x ih =>
    obtain ⟨hle, hiff⟩ := ih
    have hnext := committed_length_next (R := R) ((logged R n m).run xs) x
    rw [Machine.run_concat, Machine.meets_concat, hiff, noneLost_iff]
    cases hloses : ((logged R n m).run xs).loses x with
    | true =>
      rw [hloses, Bool.toNat_true] at hnext
      refine ⟨by omega, iff_of_false (fun h => Bool.false_ne_true h.2.symm) (by omega)⟩
    | false =>
      rw [hloses, Bool.toNat_false] at hnext
      refine ⟨by omega, ?_⟩
      rw [and_iff_left rfl]
      omega

/-- **The issues are the commits**, in order, if each is the one committed last and none was lost. -/
theorem issued_eq_take {xs : List (Cycle n m)} (h : (logged R n m).Meets NoneLost xs) :
    ((logged R n m).run xs).sys.issued.map Issue.insn =
        ((logged R n m).run xs).committed.take ((logged R n m).run xs).sys.issued.length ↔
      (logged R n m).Meets (fun s _ => s.IssuedAsCommitted) xs := by
  induction xs using List.reverseRecOn with
  | nil => exact iff_of_true rfl (Machine.Meets.nil _)
  | append_singleton xs x ih =>
    have hxs := (Machine.meets_concat.mp h).1
    have hlen := (committed_length xs).2.mp hxs
    rw [Machine.meets_concat, Machine.run_concat, ← ih hxs]
    generalize (logged R n m).run xs = s at hlen ⊢
    have hcommitted : ((logged R n m).next s x).committed = s.committed ++ (s.sys.commits x).toList := rfl
    have hissued : ((logged R n m).next s x).sys.issued =
        if s.sys.periph.l1dInsnValidO then s.sys.issued ++ [s.sys.issue] else s.sys.issued := rfl
    cases hvalid : s.sys.periph.l1dInsnValidO with
    | false =>
      rw [hcommitted, hissued, hvalid, if_neg Bool.false_ne_true, List.take_append_of_le_length (by omega)]
      simp [IssuedAsCommitted, hvalid]
    | true =>
      have hcommit : s.sys.periph.l1dInsnCommit = true := (Peripheral.l1dInsnValidO_iff.mp hvalid).1
      rw [hcommit, Bool.toNat_true] at hlen
      obtain ⟨cs, c, hcs⟩ := (List.eq_nil_or_concat' s.committed).resolve_left (by
        rintro hnil
        rw [hnil] at hlen
        cases hlen)
      have hcslen : cs.length = s.sys.issued.length := by
        rw [hcs, List.length_append] at hlen
        exact Nat.add_right_cancel hlen
      have hinsn : s.sys.issue.insn = s.sys.periph.operands := Peripheral.l1dInsnO_of_valid hvalid
      rw [hcommitted, hissued, hvalid, if_pos rfl, List.map_append, List.length_append, List.length_singleton,
        List.take_append_of_le_length (by omega), ← hlen, List.take_length, hcs,
        ← hcslen, List.take_left, List.map_singleton, hinsn, List.append_singleton_inj]
      simp [IssuedAsCommitted, hvalid, hcs, eq_comm]

/-! ## What an idle status says -/

/-- With all lock bits clear, all commits are done if none is in the register and all cycles have kept them. -/
theorem allDone_iff {xs : List (Cycle n m)} (I : LockStep ((logged R n m).run xs).sys)
    (hl : ((logged R n m).run xs).sys.periph.locked = false) :
    ((logged R n m).run xs).AllDone ↔
      ((logged R n m).run xs).sys.periph.l1dInsnCommit = false ∧ (logged R n m).Meets KeepsCommits xs := by
  have hlock := Peripheral.locked_eq_false_iff.mp hl
  have hpend : ∀ t, (((logged R n m).run xs).sys.tile t).flushPendingQ = false :=
    fun t => by rw [← I.lock_eq t, hlock t]
  obtain ⟨hle, hlost⟩ := committed_length (R := R) xs
  constructor
  · intro h
    have hlen := congrArg List.length h.issued_eq
    rw [List.length_map] at hlen
    have hbit : ((logged R n m).run xs).sys.periph.l1dInsnCommit = false := by
      cases hbit : ((logged R n m).run xs).sys.periph.l1dInsnCommit with
      | false => rfl
      | true =>
        rw [hbit, Bool.toNat_true] at hle
        omega
    have hnone : (logged R n m).Meets NoneLost xs := hlost.mpr (by rw [hbit, Bool.toNat_false]; omega)
    have hissued := (issued_eq_take hnone).mp (by rw [h.issued_eq, hlen, List.take_length])
    exact ⟨hbit, hnone.and hissued⟩
  · rintro ⟨hbit, hkeeps⟩
    have hnone : (logged R n m).Meets NoneLost xs := fun p x q heq => (hkeeps p x q heq).1
    have hlen := hlost.mp hnone
    rw [hbit, Bool.toNat_false, Nat.add_zero] at hlen
    have hissued := (issued_eq_take hnone).mpr fun p x q heq => (hkeeps p x q heq).2
    rw [← hlen, List.take_length] at hissued
    refine ⟨hissued, hpend, fun t cb => ?_, fun t => ?_⟩
    · have hfin := I.finished_eq t cb
      rw [(I.ctrl_idle (hpend t) cb).2, Nat.add_zero, I.synced_eq, List.length_map] at hfin
      exact hfin
    · have hp := I.pulses_eq t
      rw [hlock t] at hp
      exact hp

/-- **When the status register can be trusted.**  In a run (controllers finishing only what they were started
on), every status read that returns zero finds all commits finished exactly when each read that comes with no
lock bit set finds the commit bit clear, so that no instruction is issued in its cycle, and every cycle before
it has kept the commits: none was overwritten while it waited behind a lock, and each instruction was issued
with the operands it was committed with. -/
theorem status_idle_sound_iff (R : PrimSubreg) (n m : Nat) (xs : List (Cycle n m))
    (h : (machine R n m).Meets CtrlOk xs) :
    (logged R n m).Meets (fun s x => s.ReadsIdle x → s.AllDone) xs ↔
      ∀ pre x post, xs = pre ++ x :: post → regRe x.req .l1dFlushStatus = true →
        ((logged R n m).run pre).sys.periph.locked = false →
        ((logged R n m).run pre).sys.periph.l1dInsnCommit = false ∧
          (logged R n m).Meets KeepsCommits pre := by
  refine forall_congr' fun pre => forall_congr' fun x => forall_congr' fun post =>
    imp_congr_right fun heq => ?_
  have I : LockStep ((logged R n m).run pre).sys := by
    rw [sys_run]
    exact lockStep_run R pre (h.beginning heq)
  show (ReadsIdle _ x → AllDone _) ↔ _
  rw [ReadsIdle, flushStatus_eq_zero_iff, and_imp]
  exact imp_congr_right fun _ => imp_congr_right fun hl => allDone_iff I hl

/-- A status read while a committed flush waits to be issued after the previous one, in the cycle after the
last ready pulse; and one after a flush of all banks was committed behind a flush of the shared ones and
overwritten by another commit of that, so that it has never run. -/
theorem status_idle_with_commit_waiting :
    let busy : Fin 1 → Fin 1 → Bool := fun _ _ => false
    let commit : Option RegReq := some ⟨.l1dInsnCommit, true, 1⟩
    let read : Option RegReq := some ⟨.l1dFlushStatus, false, 0⟩
    let flushAll : Option RegReq := some ⟨.cfgL1dInsn, true, 2⟩
    let flushShared : Option RegReq := some ⟨.cfgL1dInsn, true, 1⟩
    let waiting : List (Cycle 1 1) := [⟨flushAll, busy⟩, ⟨commit, busy⟩, ⟨none, busy⟩,
      ⟨commit, busy⟩, ⟨none, fun _ _ => true⟩, ⟨read, busy⟩]
    let merged : List (Cycle 1 1) := [⟨flushShared, busy⟩, ⟨commit, busy⟩, ⟨none, busy⟩,
      ⟨flushAll, busy⟩, ⟨commit, busy⟩, ⟨flushShared, busy⟩, ⟨commit, busy⟩,
      ⟨none, fun _ _ => true⟩, ⟨none, busy⟩, ⟨none, fun _ _ => true⟩, ⟨read, busy⟩]
    ∀ xs ∈ [waiting, merged], (machine primSubreg 1 1).Meets CtrlOk xs ∧
      ¬ (logged primSubreg 1 1).Meets (fun s x => s.ReadsIdle x → s.AllDone) xs := by
  intro busy commit read flushAll flushShared waiting merged xs hxs
  simp only [List.mem_cons, List.not_mem_nil, or_false] at hxs
  rcases hxs with rfl | rfl
  · refine ⟨by decide, fun h => ?_⟩
    have hread := h (waiting.take 5) ⟨read, busy⟩ [] rfl ⟨by decide, by decide⟩
    have hissued := hread.issued_eq
    revert hissued
    decide
  · refine ⟨by decide, fun h => ?_⟩
    have hread := h (merged.take 10) ⟨read, busy⟩ [] rfl ⟨by decide, by decide⟩
    have hissued := hread.issued_eq
    revert hissued
    decide

/-- Two flushes one after the other, each polled once while it runs and once after it. -/
theorem status_idle_sound_two_flushes :
    let busy : Fin 1 → Fin 1 → Bool := fun _ _ => false
    let read : Option RegReq := some ⟨.l1dFlushStatus, false, 0⟩
    let flush : List (Cycle 1 1) := [⟨some ⟨.l1dInsnCommit, true, 1⟩, busy⟩, ⟨none, busy⟩, ⟨read, busy⟩,
      ⟨none, fun _ _ => true⟩, ⟨read, busy⟩]
    let xs := ⟨some ⟨.cfgL1dInsn, true, 2⟩, busy⟩ :: (flush ++ flush)
    ((logged primSubreg 1 1).run xs).committed.length = 2 ∧
      (logged primSubreg 1 1).Meets (fun s x => s.ReadsIdle x → s.AllDone) xs := by
  intro busy read flush xs
  have hkeeps : (logged primSubreg 1 1).Meets KeepsCommits xs := by decide
  have hread : (logged primSubreg 1 1).Meets (fun s x => regRe x.req .l1dFlushStatus = true →
      s.sys.periph.locked = false → s.sys.periph.l1dInsnCommit = false) xs := by decide
  refine ⟨by decide, (status_idle_sound_iff primSubreg 1 1 xs (by decide)).mpr ?_⟩
  intro pre x post heq hre hl
  exact ⟨hread pre x post heq hre hl, hkeeps.beginning heq⟩

end Log

end Flush

end CachePool
