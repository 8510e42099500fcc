import CachePool.Flush.Peripheral
import CachePool.Refill
import CachePool.Lib.Machine

/-!
# The partition while a flush runs

The peripheral under arbitrary bus accesses and arbitrary ready pulses of the tiles, and the lines that
enter and leave the caches.  The peripheral loads the partition registers in every cycle with the commit
bit set, also while the instruction itself waits for the locks to clear; the interconnects rotate addresses
with registers of their own, which follow one cycle later.

* `stableWhileLocked_iff` — the partition is stable over every locked stretch of a run exactly when
  every load inside such a stretch writes back what is already there.
* `CacheSys` — the peripheral, the partition of the interconnects and the lines in the caches.
* `underPartition_iff` — every line in a cache was stored under the partition in force exactly when a
  partition is loaded into empty caches only, and no line enters under another one.
* `refill_of_underPartition` — such a line is un-rotated to its address.
* `partition_stable_iff` — all together.
-/

set_option autoImplicit false

namespace CachePool

namespace Flush

namespace Peripheral

variable {n : Nat}

/-- The inputs of one cycle of the peripheral: the bus access and `l1d_insn_ready_i`. -/
structure In (n : Nat) where
  req : Option RegReq
  insnReady : Fin n → Bool

def machine (R : PrimSubreg) (n : Nat) : Machine (Peripheral n) (In n) where
  init := reset
  next := fun s x => s.next R x.req x.insnReady

/-- `l1d_private_o` and `private_start_addr_o`. -/
def partition (s : Peripheral n) : BitVec 4 × BitVec 32 := (s.l1dPrivateQ, s.privateStartAddrQ)

/-- Some lock bit is set now and at the end of the cycle. -/
def staysLocked (s : Peripheral n) (x : In n) : Prop :=
  s.locked = true ∧ ∃ t, s.l1dLockQ t = true ∧ x.insnReady t = false

/-- A cycle that leaves a lock bit set loads nothing new into the partition. -/
def LoadsNothingNew (s : Peripheral n) (x : In n) : Prop :=
  s.staysLocked x → s.l1dInsnCommit = true → (s.l1dPrivate, s.l1dAddr) = s.partition

instance (s : Peripheral n) (x : In n) : Decidable (LoadsNothingNew s x) := by
  unfold LoadsNothingNew staysLocked
  exact inferInstance

/-- A lock bit is set from the end of `pre` to the end of `pre ++ mid`. -/
def LockedThrough (R : PrimSubreg) (n : Nat) (pre mid : List (In n)) : Prop :=
  ∀ k, k ≤ mid.length → ((machine R n).run (pre ++ mid.take k)).locked = true

instance (R : PrimSubreg) (pre mid : List (In n)) : Decidable (LockedThrough R n pre mid) := by
  unfold LockedThrough
  exact inferInstance

/-- The partition the tiles see does not change while a lock bit is set. -/
def StableWhileLocked (R : PrimSubreg) (n : Nat) (xs : List (In n)) : Prop :=
  ∀ pre mid post, xs = pre ++ mid ++ post → LockedThrough R n pre mid →
    ((machine R n).run (pre ++ mid)).partition = ((machine R n).run pre).partition

variable {R : PrimSubreg}

theorem next_partition (s : Peripheral n) (req : Option RegReq) (ready : Fin n → Bool) :
    (s.next R req ready).partition =
      if s.l1dInsnCommit then (s.l1dPrivate, s.l1dAddr) else s.partition := by
  unfold partition next
  cases s.l1dInsnCommit <;> rfl

/-- While a lock bit is set nothing is issued, so only ready pulses touch the lock bits. -/
theorem next_locked_iff {s : Peripheral n} (h : s.locked = true) (x : In n) :
    ((machine R n).next s x).locked = true ↔ s.staysLocked x := by
  have hv : s.l1dInsnValidO = false := by simp [l1dInsnValidO, h]
  have hl : ∀ t, ((machine R n).next s x).l1dLockQ t = (!x.insnReady t && s.l1dLockQ t) :=
    fun t => l1dLockD_of_not_valid hv x.insnReady t
  simp only [locked, decide_eq_true_eq, hl, staysLocked, Bool.and_eq_true, Bool.not_eq_true']
  constructor
  · rintro ⟨t, hr, ht⟩
    exact ⟨⟨t, ht⟩, t, ht, hr⟩
  · rintro ⟨_, t, ht, hr⟩
    exact ⟨t, hr, ht⟩

/-- Each cycle of a locked stretch starts and ends locked. -/
theorem through_of_lockedThrough {pre mid : List (In n)} (h : LockedThrough R n pre mid) :
    (machine R n).Through (fun s x => s.staysLocked x) pre mid := by
  rintro as x bs rfl
  have hnow := h as.length (by simp)
  have hend := h (as.length + 1) (by simp)
  rw [List.take_left] at hnow
  rw [List.take_append, List.take_of_length_le (Nat.le_succ _), Nat.add_sub_cancel_left,
    List.take_succ_cons, List.take_zero, ← List.append_assoc, Machine.run_concat] at hend
  exact (next_locked_iff hnow x).mp hend

/-- A stretch whose cycles do so is locked, unless it has none. -/
theorem lockedThrough_of_through {pre mid : List (In n)} (hne : mid ≠ [])
    (h : (machine R n).Through (fun s x => s.staysLocked x) pre mid) : LockedThrough R n pre mid := by
  intro k hk
  rcases Nat.lt_or_eq_of_le hk with hlt | rfl
  · exact (h (mid.take k) mid[k] (mid.drop (k + 1)) (by simp)).1
  · obtain ⟨as, x, rfl⟩ := (List.eq_nil_or_concat' mid).resolve_left hne
    have hst := h as x [] rfl
    rw [List.take_length, ← List.append_assoc, Machine.run_concat]
    exact (next_locked_iff hst.1 x).mpr hst

theorem loadsNothingNew_iff {s : Peripheral n} {x : In n} : LoadsNothingNew s x ↔
    (s.staysLocked x → ((machine R n).next s x).partition = s.partition) := by
  have hn : ((machine R n).next s x).partition = _ := next_partition (R := R) s x.req x.insnReady
  unfold LoadsNothingNew
  rw [hn]
  constructor
  · intro h hst
    split
    · exact h hst ‹_›
    · rfl
  · intro h hst hc
    have hp := h hst
    rwa [if_pos hc] at hp

/-- **Stability of the partition, cycle by cycle.** -/
theorem stableWhileLocked_iff (xs : List (In n)) :
    StableWhileLocked R n xs ↔ (machine R n).Meets LoadsNothingNew xs := by
  have hstable := Machine.stable_iff (M := machine R n) partition (fun s x => s.staysLocked x) xs
  simp only [← loadsNothingNew_iff (R := R)] at hstable
  rw [← hstable]
  constructor
  · intro h pre mid post heq ht
    by_cases hne : mid = []
    · rw [hne, List.append_nil]
    · exact h pre mid post heq (lockedThrough_of_through hne ht)
  · intro h pre mid post heq hl
    exact h pre mid post heq (through_of_lockedThrough hl)

end Peripheral

/-! ## The lines in the caches -/

/-- A line of a bank: its address, and the partition under which its address was rotated. -/
structure Line where
  bank : Nat
  addr : BitVec 32
  part : BitVec 4 × BitVec 32
  deriving DecidableEq, Repr

/-- One cycle: the inputs of the peripheral, the lines (bank and address) whose addresses the interconnects
rotate on their way into the caches, and which lines leave, by a flush or otherwise. -/
structure CacheIn (n : Nat) where
  periph : Peripheral.In n
  entering : List (Nat × BitVec 32)
  leaves : Line → Bool

/-- The peripheral, the partition that the interconnects hold (`num_private_cache_q`, `private_start_addr_q`)
and the lines in the caches. -/
structure CacheSys (n : Nat) where
  periph : Peripheral n
  intercoPart : BitVec 4 × BitVec 32
  lines : List Line

namespace CacheSys

open Peripheral

variable {n : Nat}

def reset : CacheSys n := ⟨Peripheral.reset, (0, 0), []⟩

variable (s : CacheSys n) (x : CacheIn n)

def next (R : PrimSubreg) : CacheSys n where
  periph := s.periph.next R x.periph.req x.periph.insnReady
  intercoPart := s.periph.partition
  lines := s.lines.filter (fun l => !x.leaves l) ++ x.entering.map fun e => ⟨e.1, e.2, s.intercoPart⟩

def machine (R : PrimSubreg) (n : Nat) : Machine (CacheSys n) (CacheIn n) where
  init := reset
  next := fun s x => s.next x R

/-- The partition in force from the end of the cycle on. -/
def loaded : BitVec 4 × BitVec 32 :=
  if s.periph.l1dInsnCommit then (s.periph.l1dPrivate, s.periph.l1dAddr) else s.periph.partition

/-- Every line in a cache was stored under the partition in force. -/
def UnderPartition : Prop := ∀ l ∈ s.lines, l.part = s.periph.partition

/-- A cycle that loads another partition, be it the one in which a flush is issued, leaves no line in a cache;
and lines enter only where the interconnects hold the partition in force at its end. -/
def LoadsEmpty : Prop :=
  (s.loaded ≠ s.periph.partition → ∀ l ∈ s.lines, x.leaves l = true) ∧
    (x.entering ≠ [] → s.intercoPart = s.loaded)

/-- The cycle keeps every line under the partition in force, and the partition while a flush runs. -/
def KeepsPartition : Prop := LoadsNothingNew s.periph x.periph ∧ s.LoadsEmpty x

instance : Decidable (s.LoadsEmpty x) := by
  unfold LoadsEmpty
  exact inferInstance

instance : Decidable (s.KeepsPartition x) := by
  unfold KeepsPartition
  exact inferInstance

variable {s x} {R : PrimSubreg}

theorem next_partition_eq_loaded : (s.next x R).periph.partition = s.loaded :=
  next_partition s.periph x.periph.req x.periph.insnReady

/-- What one cycle does to the lines. -/
theorem underPartition_next_iff (h : s.UnderPartition) : (s.next x R).UnderPartition ↔ s.LoadsEmpty x := by
  unfold UnderPartition LoadsEmpty
  rw [next_partition_eq_loaded]
  simp only [next, List.mem_append, List.mem_filter, List.mem_map, Bool.not_eq_true']
  constructor
  · intro hall
    refine ⟨fun hload l hl => ?_, fun hne => ?_⟩
    · by_contra hstays
      have hsame := hall l (Or.inl ⟨hl, by simpa using hstays⟩)
      exact hload (hsame.symm.trans (h l hl))
    · obtain ⟨e, he⟩ := List.exists_mem_of_ne_nil _ hne
      exact hall ⟨e.1, e.2, s.intercoPart⟩ (Or.inr ⟨e, he, rfl⟩)
  · rintro ⟨hleave, henter⟩ l (⟨hl, hstays⟩ | ⟨e, he, rfl⟩)
    · by_contra hnew
      have hgone := hleave (fun hload => hnew ((h l hl).trans hload.symm)) l hl
      rw [hgone] at hstays
      cases hstays
    · exact henter (List.ne_nil_of_mem he)

theorem periph_run (xs : List (CacheIn n)) :
    ((machine R n).run xs).periph = (Peripheral.machine R n).run (xs.map CacheIn.periph) := by
  induction xs using List.reverseRecOn with
  | nil => rfl
  | append_singleton xs x ih =>
    rw [Machine.run_concat, List.map_append, List.map_singleton, Machine.run_concat, ← ih]
    rfl

/-- A condition on the peripheral is one on its own run. -/
theorem meets_periph_iff {C : Peripheral n → In n → Prop} (xs : List (CacheIn n)) :
    (machine R n).Meets (fun s x => C s.periph x.periph) xs ↔
      (Peripheral.machine R n).Meets C (xs.map CacheIn.periph) := by
  induction xs using List.reverseRecOn with
  | nil => exact ⟨fun _ => Machine.Meets.nil C, fun _ => Machine.Meets.nil _⟩
  | append_singleton xs x ih =>
    rw [List.map_append, List.map_singleton, Machine.meets_concat, Machine.meets_concat, ih, periph_run]

theorem underPartition_reset : (reset : CacheSys n).UnderPartition := fun _ hl => absurd hl List.not_mem_nil

/-- **Lines and their partition, cycle by cycle.** -/
theorem underPartition_iff (xs : List (CacheIn n)) :
    (∀ pre post, xs = pre ++ post → ((machine R n).run pre).UnderPartition) ↔
      (machine R n).Meets LoadsEmpty xs := by
  have hcycle := Machine.meets_congr_upon (M := machine R n) (P := UnderPartition)
    (C := fun s x => (s.next x R).UnderPartition) (D := LoadsEmpty) underPartition_reset
    (fun _ _ h => underPartition_next_iff h) (fun _ _ h hx => (underPartition_next_iff h).mpr hx) xs
  rw [← hcycle]
  constructor
  · intro h pre x post heq
    have hafter := h (pre ++ [x]) post (by simp [heq])
    rw [Machine.run_concat] at hafter
    exact hafter
  · intro h pre post heq
    rcases pre.eq_nil_or_concat' with rfl | ⟨pre, x, rfl⟩
    · exact underPartition_reset
    · rw [Machine.run_concat]
      exact h pre x post (by simp [heq])

/-- A line stored under the partition in force is un-rotated to its address. -/
theorem refill_of_underPartition (h : s.UnderPartition) {l : Line} (hl : l ∈ s.lines) {P : Params}
    {o : BitVec 5} (hC : ∃ k, P.numCache = 2 ^ k) (hp : l.part.1.toNat ≤ P.numCache)
    (ho : o.toNat + Interco.bitsToRotate P ⟨o, l.part.1, l.part.2⟩ l.bank < 32) :
    Refill.bankAddrScramble P (s.periph.partCfg o) l.bank
      (Interco.genScramble P ⟨o, l.part.1, l.part.2⟩ l.bank l.addr) = l.addr := by
  have hcfg : s.periph.partCfg o = ⟨o, l.part.1, l.part.2⟩ := by rw [h l hl]; rfl
  rw [hcfg]
  exact Refill.bankAddrScramble_genScramble hC
    ((PartCfg.numPrivateCache_le ⟨o, l.part.1, l.part.2⟩).trans hp) ho l.addr

/-- **When lines are written back under the partition they were stored under.**  In a run the partition is
stable over all stretches with a lock bit set, and every line in a cache was at all times stored under the
partition in force, exactly when every cycle keeps the partition: a cycle that leaves a lock bit set loads no
other one, a cycle that loads another one, the issue of a flush included, leaves no line in a cache, and no
line enters under another one than is in force at its end.  In such a run, at any time and hence also while a
flush runs, the refill path un-rotates every line of the caches to its address. -/
theorem partition_stable_iff (R : PrimSubreg) (n : Nat) (xs : List (CacheIn n)) :
    ((StableWhileLocked R n (xs.map CacheIn.periph) ∧
      ∀ pre post, xs = pre ++ post → ((machine R n).run pre).UnderPartition) ↔
        (machine R n).Meets KeepsPartition xs) ∧
    ((machine R n).Meets KeepsPartition xs → ∀ pre post, xs = pre ++ post →
      ∀ l ∈ ((machine R n).run pre).lines, ∀ (P : Params) (o : BitVec 5), (∃ k, P.numCache = 2 ^ k) →
      l.part.1.toNat ≤ P.numCache → o.toNat + Interco.bitsToRotate P ⟨o, l.part.1, l.part.2⟩ l.bank < 32 →
      Refill.bankAddrScramble P (((machine R n).run pre).periph.partCfg o) l.bank
        (Interco.genScramble P ⟨o, l.part.1, l.part.2⟩ l.bank l.addr) = l.addr) := by
  have hiff : (StableWhileLocked R n (xs.map CacheIn.periph) ∧
      ∀ pre post, xs = pre ++ post → ((machine R n).run pre).UnderPartition) ↔
        (machine R n).Meets KeepsPartition xs := by
    rw [stableWhileLocked_iff, underPartition_iff, ← meets_periph_iff]
    exact ⟨fun h => h.1.and h.2,
      fun h => ⟨fun p x q heq => (h p x q heq).1, fun p x q heq => (h p x q heq).2⟩⟩
  refine ⟨hiff, fun h pre post heq l hl P o hC hp ho => ?_⟩
  exact refill_of_underPartition ((hiff.mpr h).2 pre post heq) hl hC hp ho

/-- A shared line of bank 1 is in a cache.  If a flush of all banks runs when two private banks are configured
and committed, the partition changes under it; if they are configured before and the commit issues the flush,
the partition has changed when the flush begins.  Both times the line is written back to another address. -/
theorem partition_changes_during_flush :
    let cycle (req : Option RegReq) : CacheIn 4 := ⟨⟨req, fun _ => false⟩, [], fun _ => false⟩
    let store : CacheIn 4 := ⟨⟨none, fun _ => false⟩, [(1, 0x80034000#32)], fun _ => false⟩
    let insn := cycle (some ⟨.cfgL1dInsn, true, 2⟩)
    let commit := cycle (some ⟨.l1dInsnCommit, true, 1⟩)
    let banks := cycle (some ⟨.l1dPrivate, true, 2⟩)
    let during := [cycle none, store, insn, commit, cycle none, banks, commit, cycle none]
    let atIssue := [cycle none, store, insn, banks, commit, cycle none]
    let M := machine primSubreg 4
    let l : Line := ⟨1, 0x80034000#32, (0#4, 0xA0000000#32)⟩
    let P : Params := ⟨4, 4, 4, 2⟩
    ¬ StableWhileLocked primSubreg 4 (during.map CacheIn.periph) ∧
    ∀ xs ∈ [during, atIssue], (M.run xs).periph.locked = true ∧ l ∈ (M.run xs).lines ∧
      ¬ (M.run xs).UnderPartition ∧
      Refill.bankAddrScramble P ((M.run xs).periph.partCfg 14) l.bank
        (Interco.genScramble P ⟨14, l.part.1, l.part.2⟩ l.bank l.addr) ≠ l.addr := by
  intro cycle store insn commit banks during atIssue M l P
  constructor
  · intro h
    have hp := h ((during.map CacheIn.periph).take 5) ((during.map CacheIn.periph).drop 5) [] rfl (by decide)
    revert hp
    decide
  · intro xs hxs
    simp only [List.mem_cons, List.not_mem_nil, or_false] at hxs
    rcases hxs with rfl | rfl
    · have hl : l ∈ (M.run during).lines := by decide
      refine ⟨by decide, hl, fun h => ?_, by decide⟩
      have hpart := h l hl
      revert hpart
      decide
    · have hl : l ∈ (M.run atIssue).lines := by decide
      refine ⟨by decide, hl, fun h => ?_, by decide⟩
      have hpart := h l hl
      revert hpart
      decide

/-- Two private banks are configured once a flush has emptied the caches, and a line of theirs is stored when
the interconnects have followed. -/
theorem partition_stable_flushed :
    let cycle (req : Option RegReq) : CacheIn 4 := ⟨⟨req, fun _ => false⟩, [], fun _ => false⟩
    let ready : CacheIn 4 := ⟨⟨none, fun _ => true⟩, [], fun _ => true⟩
    let store (cb : Nat) (addr : BitVec 32) : CacheIn 4 :=
      ⟨⟨none, fun _ => false⟩, [(cb, addr)], fun _ => false⟩
    let insn := cycle (some ⟨.cfgL1dInsn, true, 2⟩)
    let commit := cycle (some ⟨.l1dInsnCommit, true, 1⟩)
    let banks := cycle (some ⟨.l1dPrivate, true, 2⟩)
    let xs := [cycle none, store 1 0x80034000#32, insn, commit, cycle none, ready, banks, commit, cycle none,
      ready, store 1 0xA0034000#32]
    ((machine primSubreg 4).run xs).lines = [⟨1, 0xA0034000#32, (2#4, 0xA0000000#32)⟩] ∧
      StableWhileLocked primSubreg 4 (xs.map CacheIn.periph) ∧
      ∀ pre post, xs = pre ++ post → ((machine primSubreg 4).run pre).UnderPartition := by
  intro cycle ready store insn commit banks xs
  exact ⟨by decide, (partition_stable_iff primSubreg 4 xs).1.mpr (by decide)⟩

end CacheSys

end Flush

end CachePool
