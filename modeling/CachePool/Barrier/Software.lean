import CachePool.Lib.Machine
import CachePool.Lib.Tally

/-!
# The software barriers (`barrier.c`)

`n` harts call the barrier on one shared structure again and again.  A step is one access to the structure;
the comparison of the count with `n` belongs to the access that returns it.

* `swBarrier` — one step of a call; `snrtClusterSwBarrier`, `snrtGlobalBarrier` and `snrtBarrier` are this
  with their own number of harts.
* `Reusable` — no hart leaves its call before all have entered theirs, a hart whose round has been bumped
  leaves with its own next step, and the counter is 0 between the rounds.
* `HartOk`, `Round` — where a hart is for the number of bumps so far; what the counter says about the round.
* `swBarrier_reusable` — every barrier is reusable, in every run.
-/

set_option autoImplicit false

namespace CachePool

namespace SwBarrier

/-- `struct snrt_barrier`. -/
structure SnrtBarrier where
  barrier : BitVec 32
  barrierIteration : BitVec 32
  deriving DecidableEq, Repr

/-- Where a hart is: outside of a call, or before the atomic add, the reset, the bump, or a poll. -/
inductive Pc where
  | outside | add | reset | bump | poll
  deriving DecidableEq, Repr

/-- A hart: `prev_barrier_iteration`, and how many calls it has entered and left. -/
structure Hart where
  pc : Pc
  prevIt : BitVec 32
  entered : Nat
  left : Nat
  deriving DecidableEq, Repr

/-- One step of a hart in a barrier of `n` harts. -/
def swBarrier (n : BitVec 32) (bar : SnrtBarrier) (h : Hart) : SnrtBarrier × Hart :=
  match h.pc with
  | .outside => (bar, { h with pc := .add, prevIt := bar.barrierIteration, entered := h.entered + 1 })
  | .add =>
    let barrier := bar.barrier + 1
    ({ bar with barrier := barrier }, { h with pc := if barrier = n then .reset else .poll })
  | .reset => ({ bar with barrier := 0 }, { h with pc := .bump })
  | .bump =>
    ({ bar with barrierIteration := bar.barrierIteration + 1 }, { h with pc := .outside, left := h.left + 1 })
  | .poll =>
    (bar, if h.prevIt = bar.barrierIteration then h else { h with pc := .outside, left := h.left + 1 })

/-- `snrt_cluster_sw_barrier`. -/
def snrtClusterSwBarrier (snrtClusterCoreNum : BitVec 32) : SnrtBarrier → Hart → SnrtBarrier × Hart :=
  swBarrier snrtClusterCoreNum

/-- `snrt_global_barrier`. -/
def snrtGlobalBarrier (snrtGlobalCoreNum : BitVec 32) : SnrtBarrier → Hart → SnrtBarrier × Hart :=
  swBarrier snrtGlobalCoreNum

/-- `snrt_barrier`. -/
def snrtBarrier (n : BitVec 32) : SnrtBarrier → Hart → SnrtBarrier × Hart := swBarrier n

/-- Which of the barriers the harts call. -/
inductive Kind where
  | cluster | global | generic
  deriving DecidableEq, Repr

def Kind.step (k : Kind) (n : BitVec 32) : SnrtBarrier → Hart → SnrtBarrier × Hart :=
  match k with
  | cluster => snrtClusterSwBarrier n
  | global => snrtGlobalBarrier n
  | generic => snrtBarrier n

theorem Kind.step_eq (k : Kind) (n : BitVec 32) : k.step n = swBarrier n := by
  cases k <;> rfl

/-- The structure, its harts, and how often the iteration has been bumped. -/
structure Sys (n : BitVec 32) where
  bar : SnrtBarrier
  harts : Fin n.toNat → Hart
  bumps : Nat

namespace Sys

variable {n : BitVec 32}

def init (n : BitVec 32) : Sys n := ⟨⟨0, 0⟩, fun _ => ⟨.outside, 0, 0, 0⟩, 0⟩

/-- One step of hart `i`. -/
def next (k : Kind) (s : Sys n) (i : Fin n.toNat) : Sys n :=
  let r := k.step n s.bar (s.harts i)
  { bar := r.1
    harts := Function.update s.harts i r.2
    bumps := if (s.harts i).pc = .bump then s.bumps + 1 else s.bumps }

def machine (k : Kind) (n : BitVec 32) : Machine (Sys n) (Fin n.toNat) := ⟨init n, next k⟩

/-- **Reusable**, at the end of the run `xs`.  Hart `i` is in its call of number `entered`; the last arriver
of that round has bumped the iteration when there are as many bumps. -/
structure Reusable (M : Machine (Sys n) (Fin n.toNat)) (xs : List (Fin n.toNat)) : Prop where
  no_early_leave : ∀ i j, ((M.run xs).harts i).left ≤ ((M.run xs).harts j).entered
  leaves : ∀ i, ((M.run xs).harts i).pc ≠ .outside → ((M.run xs).harts i).entered ≤ (M.run xs).bumps →
    ∀ ys, i ∈ ys → ((M.run xs).harts i).entered ≤ ((M.run (xs ++ ys)).harts i).left
  counter_zero : (∀ i, ((M.run xs).harts i).pc = .outside) → (M.run xs).bar.barrier = 0

/-! ## Where the harts are -/

theorem ofNat_succ (a : Nat) : BitVec.ofNat 32 (a + 1) = BitVec.ofNat 32 a + 1 := by
  rw [BitVec.ofNat_add]
  rfl

/-- Where a hart can be after `r` bumps: in its call of number `r + 1`, or still polling in number `r`. -/
def HartOk (r : Nat) (h : Hart) : Prop :=
  match h.pc with
  | .outside => h.entered = r ∧ h.left = r
  | .add => h.entered = r + 1 ∧ h.left = r ∧ h.prevIt = BitVec.ofNat 32 r
  | .reset | .bump => h.entered = r + 1 ∧ h.left = r
  | .poll =>
    (h.entered = r + 1 ∧ h.left = r ∧ h.prevIt = BitVec.ofNat 32 r) ∨
      (h.entered = r ∧ h.left + 1 = r ∧ h.prevIt + 1 = BitVec.ofNat 32 r)

/-- The hart polls for the bump of number `r + 1`. -/
def Hart.Waits (r : Nat) (h : Hart) : Prop := h.pc = .poll ∧ h.entered = r + 1

/-- The hart has been counted in the round after `r` bumps. -/
def arrived (r : Nat) (h : Hart) : Nat := if h.pc = .poll ∧ h.entered = r + 1 then 1 else 0

theorem arrived_le (r : Nat) (h : Hart) : arrived r h ≤ 1 := by
  unfold arrived
  split <;> omega

theorem HartOk.left_le {r : Nat} {h : Hart} (ok : HartOk r h) : h.left ≤ r := by
  unfold HartOk at ok
  cases hpc : h.pc <;> simp only [hpc] at ok <;> omega

theorem HartOk.le_entered {r : Nat} {h : Hart} (ok : HartOk r h) : r ≤ h.entered := by
  unfold HartOk at ok
  cases hpc : h.pc <;> simp only [hpc] at ok <;> omega

/-- What the structure says about the round: it counts the harts that wait; the last one has arrived and will
reset the counter; it has done so and will bump the iteration. -/
inductive Round (s : Sys n) : Prop where
  | gathering (hnone : ∀ i, (s.harts i).pc ≠ .reset ∧ (s.harts i).pc ≠ .bump)
      (hcount : s.bar.barrier = BitVec.ofNat 32 (tally (arrived s.bumps) s.harts))
  | resetting (i : Fin n.toNat) (hi : (s.harts i).pc = .reset)
      (hothers : ∀ j, j ≠ i → Hart.Waits s.bumps (s.harts j))
  | bumping (i : Fin n.toNat) (hi : (s.harts i).pc = .bump) (hzero : s.bar.barrier = 0)
      (hothers : ∀ j, j ≠ i → Hart.Waits s.bumps (s.harts j))

structure Inv (s : Sys n) : Prop where
  iteration : s.bar.barrierIteration = BitVec.ofNat 32 s.bumps
  harts : ∀ i, HartOk s.bumps (s.harts i)
  round : Round s

theorem inv_init (n : BitVec 32) : (init n).Inv where
  iteration := rfl
  harts := fun _ => ⟨rfl, rfl⟩
  round := by
    refine .gathering (fun i => ⟨by simp [init], by simp [init]⟩) ?_
    have hnone : tally (arrived 0) (init n).harts = 0 := tally_eq_zero_iff.mpr (fun _ => rfl)
    have hbumps : (init n).bumps = 0 := rfl
    rw [hbumps, hnone]
    rfl

variable {s : Sys n} {k : Kind}

/-- A hart's own facts and the round are what has to be shown of a step that does not bump. -/
theorem Inv.of_step (I : s.Inv) {i : Fin n.toNat} {bar : SnrtBarrier} {h : Hart}
    (hit : bar.barrierIteration = s.bar.barrierIteration) (hok : HartOk s.bumps h)
    (hround : Round (⟨bar, Function.update s.harts i h, s.bumps⟩ : Sys n)) :
    (⟨bar, Function.update s.harts i h, s.bumps⟩ : Sys n).Inv := by
  refine ⟨hit.trans I.iteration, ?_, hround⟩
  intro j
  dsimp only
  by_cases hj : j = i
  · rw [hj, Function.update_self]
    exact hok
  · rw [Function.update_of_ne hj]
    exact I.harts j

/-- In a round whose last hart has arrived, a hart that does not wait is that one. -/
theorem Round.gathering_of (R : Round s) {i : Fin n.toNat} (hpc : (s.harts i).pc ≠ .poll)
    (hreset : (s.harts i).pc ≠ .reset) (hbump : (s.harts i).pc ≠ .bump) :
    (∀ j, (s.harts j).pc ≠ .reset ∧ (s.harts j).pc ≠ .bump) ∧
      s.bar.barrier = BitVec.ofNat 32 (tally (arrived s.bumps) s.harts) := by
  cases R with
  | gathering hnone hcount => exact ⟨hnone, hcount⟩
  | resetting j hj hothers =>
    by_cases hij : i = j
    · rw [hij] at hreset
      exact absurd hj hreset
    · exact absurd (hothers i hij).1 hpc
  | bumping j hj hzero hothers =>
    by_cases hij : i = j
    · rw [hij] at hbump
      exact absurd hj hbump
    · exact absurd (hothers i hij).1 hpc

/-- A hart enters its next call. -/
theorem Inv.step_outside (I : s.Inv) {i : Fin n.toNat} (hpc : (s.harts i).pc = .outside) :
    (next k s i).Inv := by
  obtain ⟨hnone, hcount⟩ := I.round.gathering_of (i := i) (by simp [hpc]) (by simp [hpc]) (by simp [hpc])
  have hat := I.harts i
  simp only [HartOk, hpc] at hat
  simp only [next, Kind.step_eq, swBarrier, hpc]
  refine I.of_step rfl ⟨by simp [hat.1], hat.2, I.iteration⟩ (.gathering ?_ ?_)
  · intro j
    dsimp only
    by_cases hj : j = i
    · rw [hj, Function.update_self]
      simp
    · rw [Function.update_of_ne hj]
      exact hnone j
  · have hupd := tally_update (arrived s.bumps) s.harts i
      { s.harts i with pc := .add, prevIt := s.bar.barrierIteration, entered := (s.harts i).entered + 1 }
    simp only [arrived, hpc] at hupd
    dsimp only
    rw [hcount]
    congr 1
    simpa [arrived] using hupd.symm

/-- A hart is counted: it waits, or it is the last one. -/
theorem Inv.step_add (I : s.Inv) {i : Fin n.toNat} (hpc : (s.harts i).pc = .add) : (next k s i).Inv := by
  obtain ⟨hnone, hcount⟩ := I.round.gathering_of (i := i) (by simp [hpc]) (by simp [hpc]) (by simp [hpc])
  have hat := I.harts i
  simp only [HartOk, hpc] at hat
  obtain ⟨hentered, hleft, hprev⟩ := hat
  simp only [next, Kind.step_eq, swBarrier, hpc]
  obtain ⟨h, hh⟩ : ∃ h, h = { s.harts i with pc := .poll } := ⟨_, rfl⟩
  -- the count if the hart waited
  have hupd := tally_update (arrived s.bumps) s.harts i h
  have hself : arrived s.bumps (s.harts i) = 0 := by simp [arrived, hpc]
  have hone : arrived s.bumps h = 1 := by simp [arrived, hh, hentered]
  have hle := tally_le (arrived_le s.bumps) (Function.update s.harts i h)
  rw [Fintype.card_fin] at hle
  have hlt := n.isLt
  have hnext : s.bar.barrier + 1 =
      BitVec.ofNat 32 (tally (arrived s.bumps) (Function.update s.harts i h)) := by
    rw [hcount, ← ofNat_succ]
    congr 1
    omega
  by_cases hlast : s.bar.barrier + 1 = n
  · rw [if_pos hlast]
    refine I.of_step rfl ⟨hentered, hleft⟩ (.resetting i (by simp) ?_)
    intro j hj
    have hfull : tally (arrived s.bumps) (Function.update s.harts i h) = Fintype.card (Fin n.toNat) := by
      rw [hlast] at hnext
      have hnat := congrArg BitVec.toNat hnext
      rw [BitVec.toNat_ofNat, Nat.mod_eq_of_lt (by omega)] at hnat
      rw [Fintype.card_fin]
      exact hnat.symm
    have hj1 := eq_one_of_tally_eq (arrived_le s.bumps) hfull j
    rw [Function.update_of_ne hj] at hj1
    dsimp only
    rw [Function.update_of_ne hj]
    by_contra hn
    unfold Hart.Waits at hn
    simp [arrived, hn] at hj1
  · rw [if_neg hlast, ← hh]
    refine I.of_step rfl (by rw [hh]; exact Or.inl ⟨hentered, hleft, hprev⟩) (.gathering ?_ hnext)
    intro j
    dsimp only
    by_cases hj : j = i
    · rw [hj, Function.update_self, hh]
      simp
    · rw [Function.update_of_ne hj]
      exact hnone j

/-- The last arriver resets the counter; everybody else waits. -/
theorem Inv.step_reset (I : s.Inv) {i : Fin n.toNat} (hpc : (s.harts i).pc = .reset) : (next k s i).Inv := by
  have hat := I.harts i
  simp only [HartOk, hpc] at hat
  have hothers : ∀ j, j ≠ i → Hart.Waits s.bumps (s.harts j) := by
    cases I.round with
    | gathering hnone hcount => exact absurd hpc (hnone i).1
    | resetting j hj hothers =>
      by_cases hij : i = j
      · rw [hij]
        exact hothers
      · have hpoll := (hothers i hij).1
        rw [hpc] at hpoll
        cases hpoll
    | bumping j hj hzero hothers =>
      by_cases hij : i = j
      · rw [hij, hj] at hpc
        cases hpc
      · have hpoll := (hothers i hij).1
        rw [hpc] at hpoll
        cases hpoll
  simp only [next, Kind.step_eq, swBarrier, hpc]
  refine I.of_step rfl hat (.bumping i (by simp) rfl ?_)
  intro j hj
  dsimp only
  rw [Function.update_of_ne hj]
  exact hothers j hj

/-- The last arriver bumps the iteration: everybody else is released. -/
theorem Inv.step_bump (I : s.Inv) {i : Fin n.toNat} (hpc : (s.harts i).pc = .bump) : (next k s i).Inv := by
  have hat := I.harts i
  simp only [HartOk, hpc] at hat
  obtain ⟨hzero, hothers⟩ : s.bar.barrier = 0 ∧ ∀ j, j ≠ i → Hart.Waits s.bumps (s.harts j) := by
    cases I.round with
    | gathering hnone hcount => exact absurd hpc (hnone i).2
    | resetting j hj hothers =>
      by_cases hij : i = j
      · rw [hij, hj] at hpc
        cases hpc
      · have hpoll := (hothers i hij).1
        rw [hpc] at hpoll
        cases hpoll
    | bumping j hj hzero hothers =>
      by_cases hij : i = j
      · rw [hij]
        exact ⟨hzero, hothers⟩
      · have hpoll := (hothers i hij).1
        rw [hpc] at hpoll
        cases hpoll
  simp only [next, Kind.step_eq, swBarrier, hpc]
  refine ⟨?_, ?_, .gathering ?_ ?_⟩
  · simp only [I.iteration, if_true]
    rw [ofNat_succ]
  · intro j
    by_cases hj : j = i
    · simp only [hj, Function.update_self, if_true, HartOk]
      omega
    · have hok := I.harts j
      obtain ⟨hpoll, hentered⟩ := hothers j hj
      simp only [Function.update_of_ne hj, if_true, HartOk, hpoll] at hok ⊢
      rcases hok with ⟨_, hleft, hprev⟩ | ⟨hold, _⟩
      · refine Or.inr ⟨hentered, by omega, ?_⟩
        rw [hprev, ofNat_succ]
      · omega
  · intro j
    by_cases hj : j = i
    · simp [hj]
    · simp [Function.update_of_ne hj, (hothers j hj).1]
  · have hnone : tally (arrived (s.bumps + 1))
        (Function.update s.harts i { s.harts i with pc := .outside, left := (s.harts i).left + 1 }) = 0 := by
      apply tally_eq_zero_iff.mpr
      intro j
      by_cases hj : j = i
      · simp [hj, arrived]
      · simp [Function.update_of_ne hj, arrived, (hothers j hj).2]
    simp only [if_true]
    rw [hnone, hzero]
    rfl

/-- A hart polls: it waits on, or it leaves. -/
theorem Inv.step_poll (I : s.Inv) {i : Fin n.toNat} (hpc : (s.harts i).pc = .poll) : (next k s i).Inv := by
  have hat := I.harts i
  simp only [HartOk, hpc] at hat
  simp only [next, Kind.step_eq, swBarrier, hpc]
  rcases hat with ⟨hentered, hleft, hprev⟩ | ⟨hentered, hleft, hprev⟩
  · rw [if_pos (hprev.trans I.iteration.symm), Function.update_eq_self]
    exact I
  · have hne : (s.harts i).prevIt ≠ s.bar.barrierIteration := by
      rw [I.iteration, ← hprev]
      simp
    rw [if_neg hne]
    have harrived : arrived s.bumps (s.harts i) = 0 := by simp [arrived, hentered]
    refine I.of_step rfl ⟨hentered, hleft⟩ ?_
    cases I.round with
    | gathering hnone hcount =>
      refine .gathering ?_ ?_
      · intro j
        dsimp only
        by_cases hj : j = i
        · simp [hj]
        · rw [Function.update_of_ne hj]
          exact hnone j
      · have hupd := tally_update (arrived s.bumps) s.harts i
          { s.harts i with pc := .outside, left := (s.harts i).left + 1 }
        rw [harrived] at hupd
        dsimp only
        rw [hcount]
        congr 1
        simpa [arrived] using hupd.symm
    | resetting j hj hothers =>
      -- the hart would have to wait
      exfalso
      by_cases hij : i = j
      · rw [hij, hj] at hpc
        cases hpc
      · have hwaits := (hothers i hij).2
        omega
    | bumping j hj hzero hothers =>
      exfalso
      by_cases hij : i = j
      · rw [hij, hj] at hpc
        cases hpc
      · have hwaits := (hothers i hij).2
        omega

theorem inv_run (k : Kind) (n : BitVec 32) (xs : List (Fin n.toNat)) : ((machine k n).run xs).Inv := by
  apply Machine.invariant_of_next (inv_init n)
  intro s i I
  cases hpc : (s.harts i).pc with
  | outside => exact I.step_outside hpc
  | add => exact I.step_add hpc
  | reset => exact I.step_reset hpc
  | bump => exact I.step_bump hpc
  | poll => exact I.step_poll hpc

/-! ## Leaving -/

/-- A step of another hart. -/
theorem next_other (k : Kind) (s : Sys n) {i j : Fin n.toNat} (h : i ≠ j) :
    (next k s j).harts i = s.harts i :=
  Function.update_of_ne h _ _

theorem bumps_le_next (k : Kind) (s : Sys n) (j : Fin n.toNat) : s.bumps ≤ (next k s j).bumps := by
  simp only [next]
  split <;> omega

theorem left_le_next (k : Kind) (s : Sys n) (i j : Fin n.toNat) :
    (s.harts i).left ≤ ((next k s j).harts i).left := by
  by_cases hj : i = j
  · subst hj
    simp only [next, Function.update_self, Kind.step_eq, swBarrier]
    split <;> try exact Nat.le_refl _
    · exact Nat.le_succ _
    · split
      · exact Nat.le_refl _
      · exact Nat.le_succ _
  · rw [next_other k s hj]

/-- A hart whose round has been bumped leaves with its own next step. -/
theorem Inv.leaves_now (I : s.Inv) {i : Fin n.toNat} (hin : (s.harts i).pc ≠ .outside)
    (hbumped : (s.harts i).entered ≤ s.bumps) : (s.harts i).entered ≤ ((next k s i).harts i).left := by
  have hat := I.harts i
  have hpc : (s.harts i).pc = .poll := by
    unfold HartOk at hat
    cases hpc : (s.harts i).pc with
    | outside => exact absurd hpc hin
    | poll => rfl
    | add | reset | bump =>
      simp only [hpc] at hat
      omega
  simp only [HartOk, hpc] at hat
  rcases hat with ⟨hentered, _⟩ | ⟨hentered, hleft, hprev⟩
  · omega
  · have hne : (s.harts i).prevIt ≠ s.bar.barrierIteration := by
      rw [I.iteration, ← hprev]
      simp
    simp only [next, Kind.step_eq, swBarrier, hpc, if_neg hne, Function.update_self]
    omega

/-- Whatever the other harts do before it, and after it. -/
theorem leaves_later (k : Kind) (n : BitVec 32) (i : Fin n.toNat) (ys : List (Fin n.toNat)) :
    ∀ xs, (((machine k n).run xs).harts i).pc ≠ .outside →
      (((machine k n).run xs).harts i).entered ≤ ((machine k n).run xs).bumps → i ∈ ys →
      (((machine k n).run xs).harts i).entered ≤ (((machine k n).run (xs ++ ys)).harts i).left := by
  induction ys with
  | nil =>
    intro xs _ _ hmem
    cases hmem
  | cons y ys ih =>
    intro xs hin hbumped hmem
    rw [← List.singleton_append, ← List.append_assoc]
    by_cases hy : i = y
    · -- its own step: it has left, and calls only count up
      have hnow : (((machine k n).run xs).harts i).entered ≤
          (((machine k n).run (xs ++ [y])).harts i).left := by
        rw [Machine.run_concat, ← hy]
        exact (inv_run k n xs).leaves_now hin hbumped
      apply Machine.kept_after
        (P := fun s : Sys n => (((machine k n).run xs).harts i).entered ≤ (s.harts i).left)
        _ hnow ys
      intro s j hle
      exact hle.trans (left_le_next k s i j)
    · have hsame : ((machine k n).run (xs ++ [y])).harts i = ((machine k n).run xs).harts i := by
        rw [Machine.run_concat]
        exact next_other k _ hy
      have hmore : ((machine k n).run xs).bumps ≤ ((machine k n).run (xs ++ [y])).bumps := by
        rw [Machine.run_concat]
        exact bumps_le_next k _ y
      have hrest : i ∈ ys := (List.mem_cons.mp hmem).resolve_left hy
      have hlater := ih (xs ++ [y]) (by rwa [hsame]) (by rw [hsame]; omega) hrest
      rwa [hsame] at hlater

/-- Between the rounds the counter is 0. -/
theorem Inv.counter_zero (I : s.Inv) (hout : ∀ i, (s.harts i).pc = .outside) : s.bar.barrier = 0 := by
  cases I.round with
  | gathering hnone hcount =>
    have hzero : tally (arrived s.bumps) s.harts = 0 :=
      tally_eq_zero_iff.mpr (fun i => by simp [arrived, hout i])
    rw [hcount, hzero]
    rfl
  | resetting i hi hothers =>
    rw [hout i] at hi
    cases hi
  | bumping i hi hzero hothers => exact hzero

/-- **The software barriers are reusable.**  For every number of harts, every number of rounds and every
interleaving. -/
theorem swBarrier_reusable (k : Kind) (n : BitVec 32) (xs : List (Fin n.toNat)) :
    Reusable (machine k n) xs where
  no_early_leave := by
    intro i j
    have I := inv_run k n xs
    exact (I.harts i).left_le.trans (I.harts j).le_entered
  leaves := by
    intro i hin hbumped ys hmem
    exact leaves_later k n i ys xs hin hbumped hmem
  counter_zero := (inv_run k n xs).counter_zero

/-- Two harts, one round: hart 1 arrives last, resets the counter and bumps; hart 0 polls and leaves, and
enters the next round. -/
example :
    let i : Fin (2#32).toNat := ⟨0, by decide⟩
    let j : Fin (2#32).toNat := ⟨1, by decide⟩
    let s := (machine .cluster 2#32).run [i, i, j, i, j, j, j, i, i]
    s.bar = ⟨0, 1⟩ ∧ s.bumps = 1 ∧ s.harts j = ⟨.outside, 0, 1, 1⟩ ∧ s.harts i = ⟨.add, 1, 2, 1⟩ := by
  decide

end Sys

end SwBarrier

end CachePool
