import CachePool.Flush.System

/-!
# The flush calls of the runtime (`l1cache.c`)

Cores run programs of `l1d_flush`, `l1d_private_flush` and `l1d_shared_flush`.  Each call is a short
sequence of register writes that ends with the commit; in a cycle at most one core performs its next
write, so a run is an arbitrary interleaving of the calls against arbitrary flush durations.

* `InOrder` — the instructions issued, followed by the one that waits, are those of the commits
  written so far, in order.
* `inOrder_next` — its step under `Undisturbed`.
* `commits_in_order` — hence every commit becomes one execution of its own instruction.
-/

set_option autoImplicit false

namespace CachePool

namespace Flush

/-- The calls that commit an instruction. -/
inductive Call where
  | l1dFlush
  | l1dPrivateFlush (tile : BitVec 32)
  | l1dSharedFlush
  deriving DecidableEq, Repr

namespace Call

/-- `l1d_commit`. -/
def l1dCommit : RegReq := ⟨.l1dInsnCommit, true, 1⟩

/-- The register writes of a call, in program order. -/
def writes : Call → List RegReq
  | l1dFlush => [⟨.cfgL1dInsn, true, 2⟩, l1dCommit]
  | l1dPrivateFlush tile => [⟨.cfgL1dInsn, true, 0⟩, ⟨.cfgL1dTileSel, true, tile⟩, l1dCommit]
  | l1dSharedFlush => [⟨.cfgL1dInsn, true, 1⟩, l1dCommit]

/-- The instruction and tile selection a call asks for. -/
def cacheInsn {n : Nat} : Call → CacheInsn n
  | l1dFlush => ⟨2, fun _ => true⟩
  | l1dPrivateFlush tile => ⟨0, fun t => tile.getLsbD t⟩
  | l1dSharedFlush => ⟨1, fun _ => true⟩

/-- A call writes operands or the commit bit, the latter always with one. -/
theorem write_cases {k : Call} {w : RegReq} (h : w ∈ k.writes) :
    w = l1dCommit ∨ (w.write = true ∧ w.addr ≠ .l1dInsnCommit) := by
  cases k <;> simp only [writes, List.mem_cons, List.not_mem_nil, or_false] at h
  · rcases h with rfl | rfl
    · exact Or.inr ⟨rfl, by decide⟩
    · exact Or.inl rfl
  · rcases h with rfl | rfl | rfl
    · exact Or.inr ⟨rfl, by decide⟩
    · exact Or.inr ⟨rfl, fun h => nomatch h⟩
    · exact Or.inl rfl
  · rcases h with rfl | rfl
    · exact Or.inr ⟨rfl, by decide⟩
    · exact Or.inl rfl

end Call

/-- The hardware and the writes every core still has to perform, each with the call it belongs to. -/
structure Soft (n m : Nat) where
  sys : Sys n m
  rest : Nat → List (Call × RegReq)
  committed : List Call

/-- The inputs of one cycle: the core that performs its next write, if any, and the controllers that
finish. -/
structure Turn (n m : Nat) where
  core : Option Nat
  syncReady : Fin n → Fin m → Bool

namespace Soft

variable {n m : Nat}

def reset (prog : Nat → List Call) : Soft n m where
  sys := Sys.reset
  rest := fun c => (prog c).flatMap fun k => k.writes.map fun w => (k, w)
  committed := []

variable (s : Soft n m) (x : Turn n m)

/-- The write of this cycle and its call. -/
def write : Option (Call × RegReq) := x.core.bind fun c => (s.rest c).head?

/-- The hardware's inputs. -/
def cycle : Cycle n m := ⟨(s.write x).map Prod.snd, x.syncReady⟩

def next (R : PrimSubreg) : Soft n m where
  sys := s.sys.next (s.cycle x) R
  rest := fun c => if x.core = some c then (s.rest c).tail else s.rest c
  committed :=
    match s.write x with
    | some (k, w) => if w.addr = .l1dInsnCommit then s.committed ++ [k] else s.committed
    | none => s.committed

def machine (R : PrimSubreg) (n m : Nat) (prog : Nat → List Call) : Machine (Soft n m) (Turn n m) where
  init := reset prog
  next := fun s x => s.next x R

/-- The instruction that waits in the registers. -/
def waitingInsn : List (CacheInsn n) :=
  if s.sys.periph.l1dInsnCommit then [s.sys.periph.operands] else []

/-- A commit waits behind a lock. -/
def blocked : Bool := s.sys.periph.l1dInsnCommit && s.sys.periph.locked

/-- The instruction the operand registers describe after the write `w`. -/
def operandsAfter (w : RegReq) : CacheInsn n :=
  let insn := if w.addr = .cfgL1dInsn then w.wdata.setWidth 2 else s.sys.periph.cfgL1dInsn
  let mask := if w.addr = .cfgL1dTileSel then w.wdata else s.sys.periph.cfgL1dTileSel
  ⟨insn, tileSelOf insn mask⟩

/-- A call finds its own operands in the registers, and no commit waiting, when it commits; while a
commit waits, no write changes the instruction the registers describe. -/
def Undisturbed : Prop :=
  ∀ p, s.write x = some p →
    if p.2.addr = .l1dInsnCommit then s.sys.periph.operands = p.1.cacheInsn ∧ s.blocked = false
    else s.blocked = true → s.operandsAfter p.2 = s.sys.periph.operands

instance : Decidable (s.Undisturbed x) := by
  unfold Undisturbed
  exact Option.decidableForallMem (s.write x)

/-- **Each commit's own instruction, once and in order.** -/
structure InOrder : Prop where
  order : s.sys.issued.map (·.insn) ++ s.waitingInsn = s.committed.map Call.cacheInsn
  rest_writes : ∀ c p, p ∈ s.rest c → p.2 ∈ p.1.writes

variable {s x}

theorem inOrder_reset (prog : Nat → List Call) : InOrder (reset prog : Soft n m) where
  order := rfl
  rest_writes := by
    intro c p hp
    obtain ⟨k, -, hk⟩ := List.mem_flatMap.mp hp
    obtain ⟨w, hw, rfl⟩ := List.mem_map.mp hk
    exact hw

theorem InOrder.write_mem (I : InOrder s) {p : Call × RegReq} (h : s.write x = some p) :
    p.2 ∈ p.1.writes := by
  obtain ⟨c, -, hc⟩ := Option.bind_eq_some_iff.mp h
  exact I.rest_writes c p (List.mem_of_mem_head? hc)

theorem InOrder.next_rest (I : InOrder s) (R : PrimSubreg) :
    ∀ c p, p ∈ (s.next x R).rest c → p.2 ∈ p.1.writes := by
  intro c p hp
  change p ∈ (if x.core = some c then (s.rest c).tail else s.rest c) at hp
  split at hp
  · exact I.rest_writes c p (List.mem_of_mem_tail hp)
  · exact I.rest_writes c p hp

/-! ## The registers after a cycle -/

theorem next_issued (R : PrimSubreg) :
    (s.next x R).sys.issued.map (·.insn) =
      s.sys.issued.map (·.insn) ++
        if s.sys.periph.l1dInsnValidO then [s.sys.periph.operands] else [] := by
  show (if s.sys.periph.l1dInsnValidO then s.sys.issued ++ [s.sys.issue] else s.sys.issued).map _ = _
  cases hv : s.sys.periph.l1dInsnValidO
  · simp
  · simp [Sys.issue, Peripheral.l1dInsnO_of_valid hv]

theorem next_operands_idle (R : PrimSubreg) (h : s.write x = none) :
    (s.next x R).sys.periph.operands = s.sys.periph.operands := by
  simp [next, cycle, h, Sys.next, Peripheral.next, Peripheral.operands, regWe]

theorem next_operands (R : PrimSubreg) {p : Call × RegReq} (h : s.write x = some p)
    (hw : p.2.write = true) :
    (s.next x R).sys.periph.operands = s.operandsAfter p.2 := by
  simp only [next, cycle, h, Option.map_some, Sys.next, Peripheral.next, Peripheral.operands, regWe,
    regWdata, hw, Bool.true_and, operandsAfter]
  cases p.2.addr <;> simp

theorem next_commit_of_not (R : PrimSubreg)
    (h : regWe (s.cycle x).req .l1dInsnCommit = false) :
    (s.next x R).sys.periph.l1dInsnCommit = s.blocked := by
  have hc : (s.next x R).sys.periph.l1dInsnCommit = _ :=
    Peripheral.next_l1dInsnCommit R (s.cycle x).req (s.sys.insnReady (s.cycle x))
  rw [hc, h]
  rfl

theorem next_commit_of_write (R : PrimSubreg) (h : (s.cycle x).req = some Call.l1dCommit) :
    (s.next x R).sys.periph.l1dInsnCommit = true := by
  have hc : (s.next x R).sys.periph.l1dInsnCommit = _ :=
    Peripheral.next_l1dInsnCommit R (s.cycle x).req (s.sys.insnReady (s.cycle x))
  rw [hc, h]
  rfl

/-- Without a new commit, what was waiting is either issued in this cycle or still waits. -/
theorem next_order_of_kept (R : PrimSubreg) (hc : (s.next x R).sys.periph.l1dInsnCommit = s.blocked)
    (hop : s.blocked = true → (s.next x R).sys.periph.operands = s.sys.periph.operands) :
    (s.next x R).sys.issued.map (·.insn) ++ (s.next x R).waitingInsn =
      s.sys.issued.map (·.insn) ++ s.waitingInsn := by
  rw [next_issued, waitingInsn, hc, waitingInsn, List.append_assoc]
  congr 1
  unfold blocked Peripheral.l1dInsnValidO at *
  cases hq : s.sys.periph.l1dInsnCommit
  · simp
  · cases hl : s.sys.periph.locked
    · simp
    · simp [hop (by simp [hq, hl])]

/-- A commit that meets no waiting one is queued behind what was issued before. -/
theorem next_order_of_commit (R : PrimSubreg) (hc : (s.next x R).sys.periph.l1dInsnCommit = true)
    (hb : s.blocked = false) :
    (s.next x R).sys.issued.map (·.insn) ++ (s.next x R).waitingInsn =
      s.sys.issued.map (·.insn) ++ s.waitingInsn ++ [(s.next x R).sys.periph.operands] := by
  rw [next_issued, waitingInsn, if_pos hc, waitingInsn]
  congr 2
  unfold blocked at hb
  unfold Peripheral.l1dInsnValidO
  cases hq : s.sys.periph.l1dInsnCommit
  · rfl
  · rw [hq, Bool.true_and] at hb
    rw [hb]
    rfl

/-- The order is kept by a cycle that meets the condition: by cases on the write of the cycle. -/
theorem inOrder_next (I : InOrder s) (hx : s.Undisturbed x) (R : PrimSubreg) :
    InOrder (s.next x R) := by
  refine ⟨?_, I.next_rest R⟩
  cases hw : s.write x with
  | none =>
    have hreq : regWe (s.cycle x).req .l1dInsnCommit = false := by
      simp [cycle, hw, regWe]
    rw [next_order_of_kept R (next_commit_of_not R hreq) (fun _ => next_operands_idle R hw), I.order]
    simp [next, hw]
  | some p =>
    obtain ⟨k, w⟩ := p
    have hcond := hx (k, w) hw
    rcases Call.write_cases (I.write_mem hw) with hcm | ⟨hwr, ha⟩
    · -- the call commits: its own operands are in the registers
      change w = Call.l1dCommit at hcm
      subst hcm
      obtain ⟨hop, hb⟩ : s.sys.periph.operands = k.cacheInsn ∧ s.blocked = false := hcond
      have hreq : (s.cycle x).req = some Call.l1dCommit := by simp [cycle, hw]
      have hkeep : (s.next x R).sys.periph.operands = s.sys.periph.operands :=
        next_operands R hw rfl
      rw [next_order_of_commit R (next_commit_of_write R hreq) hb, hkeep, hop, I.order]
      simp [next, hw, Call.l1dCommit]
    · change w.write = true at hwr
      change w.addr ≠ .l1dInsnCommit at ha
      rw [if_neg (show ¬ (k, w).2.addr = .l1dInsnCommit from ha)] at hcond
      have hreq : regWe (s.cycle x).req .l1dInsnCommit = false := by
        simp [cycle, hw, regWe, ha]
      rw [next_order_of_kept R (next_commit_of_not R hreq)
        (fun hb => (next_operands R hw hwr).trans (hcond hb)), I.order]
      simp [next, hw, ha]

/-! ## Whole runs -/

/-- Controllers finish only what they were started on. -/
def CtrlOk (s : Soft n m) (x : Turn n m) : Prop := s.sys.CtrlOk (s.cycle x)

instance (s : Soft n m) (x : Turn n m) : Decidable (CtrlOk s x) := by
  unfold CtrlOk
  exact inferInstance

/-- **No commit is lost or altered**, in every run whose cycles meet the condition: the instructions
issued, followed by the one still waiting, are exactly those the commits asked for; every issued one
has started exactly the controllers it selects, once each; a waiting one is issued as soon as no lock
bit is set. -/
theorem commits_in_order (R : PrimSubreg) (n m : Nat) (prog : Nat → List Call)
    (xs : List (Turn n m)) (hc : (machine R n m prog).Meets CtrlOk xs)
    (hu : (machine R n m prog).Meets Undisturbed xs) :
    let s := (machine R n m prog).run xs
    s.sys.issued.map (·.insn) ++ s.waitingInsn = s.committed.map Call.cacheInsn ∧
    (∀ t cb, s.sys.synced t cb =
      (s.sys.issued.filter (·.selects t cb)).map (fun i => ctrlSyncInsn i.insn.insn)) ∧
    (∀ t cb, s.sys.finished t cb + s.sys.outstanding t cb = (s.sys.synced t cb).length) ∧
    ∀ x, s.sys.periph.l1dInsnCommit = true → s.sys.periph.locked = false →
      (s.next x R).sys.issued = s.sys.issued ++ [s.sys.issue] := by
  intro s
  have I : InOrder s ∧ Sys.LockStep s.sys := by
    refine Machine.invariant (M := machine R n m prog) (P := fun s => InOrder s ∧ Sys.LockStep s.sys)
      ⟨inOrder_reset prog, Sys.lockStep_reset⟩ ?_ xs (hc.and hu)
    rintro s x ⟨I, L⟩ ⟨hok, hun⟩
    exact ⟨inOrder_next I hun R, Sys.lockStep_next L hok R⟩
  obtain ⟨I, L⟩ := I
  refine ⟨I.order, L.synced_eq, L.finished_eq, fun x hq hl => ?_⟩
  show (if s.sys.periph.l1dInsnValidO then s.sys.issued ++ [s.sys.issue] else s.sys.issued) = _
  rw [if_pos]
  rw [Peripheral.l1dInsnValidO, hq, hl]
  rfl

/-- One core flushes everything, then the private banks of tile 0, then the shared banks, without
waiting in between: the second commit waits, is turned into a shared flush and merged with the third. -/
theorem commits_lost_behind_lock :
    let prog : Nat → List Call := fun c =>
      if c = 0 then [.l1dFlush, .l1dPrivateFlush 1, .l1dSharedFlush] else []
    let M := machine primSubreg 2 1 prog
    let w : Turn 2 1 := ⟨some 0, fun _ _ => false⟩
    let wait : Turn 2 1 := ⟨none, fun _ _ => false⟩
    let done : Turn 2 1 := ⟨none, fun _ _ => true⟩
    let xs := [w, w, wait, w, w, w, w, w, done, wait, done, wait]
    M.Meets CtrlOk xs ∧
    (M.run xs).committed = [.l1dFlush, .l1dPrivateFlush 1, .l1dSharedFlush] ∧
    (M.run xs).sys.issued.map (·.insn) = [Call.l1dFlush.cacheInsn, Call.l1dSharedFlush.cacheInsn] ∧
    ¬ (M.run xs).sys.issued.map (·.insn) ++ (M.run xs).waitingInsn =
      (M.run xs).committed.map Call.cacheInsn := by
  intro prog M w wait done xs
  exact ⟨by decide, by decide, by decide, by decide⟩

/-- Two cores, the second waiting until the first one's flush has ended. -/
theorem commits_in_order_two_cores :
    let prog : Nat → List Call := fun c =>
      if c = 0 then [.l1dPrivateFlush 2] else if c = 1 then [.l1dSharedFlush] else []
    let M := machine primSubreg 2 1 prog
    let w (c : Nat) : Turn 2 1 := ⟨some c, fun _ _ => false⟩
    let wait : Turn 2 1 := ⟨none, fun _ _ => false⟩
    let xs := [w 0, w 0, w 0, wait, wait, w 1, w 1, wait]
    (M.run xs).sys.issued.map (·.insn) ++ (M.run xs).waitingInsn =
      (M.run xs).committed.map Call.cacheInsn := by
  intro prog M w wait xs
  exact (commits_in_order primSubreg 2 1 prog xs (by decide) (by decide)).1

end Soft

end Flush

end CachePool
