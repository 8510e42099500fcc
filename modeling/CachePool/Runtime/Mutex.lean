import CachePool.Lib.Machine
import CachePool.Lib.Serial

/-!
# Mutexes (`snrt_mutex_*` in `snrt.h`, `spin_lock` and `spin_unlock` in `spin_lock.c`)

A mutex is a word.  A hart takes it by exchanging a nonzero value for what is in the word until it gets a
zero, and gives it back by storing zero.  `snrt_mutex_lock` exchanges what its last exchange returned,
`snrt_mutex_ttas_lock` looks at the word before its first exchange, `spin_lock` exchanges a one each time.

* `Pc`, `State.next` — the instructions of the three functions and of the release, with the accesses a hart
  makes while it holds the mutex and what it does in between; `mutex` — harts that take these steps in any
  order, each with any of the three functions.
* `Inv` — the word is zero exactly if nobody holds the mutex, one hart at most holds it, and the data are
  those of the sections entered so far, each executed at once.
* `sections_serial` — the run as a serial one; `mutex_progress` — the holder gives the mutex back, and a free
  mutex is taken, within few steps of the hart concerned.
-/

set_option autoImplicit false

namespace CachePool

namespace Mutex

open Serial

variable {ι ρ δ : Type} [DecidableEq ι]

/-- The function a hart takes the mutex with. -/
inductive Kind where
  | lock
  | ttasLock
  | spinLock
  deriving DecidableEq, Repr

/-- The next instruction of a hart. -/
inductive Pc where
  /-- has not called -/
  | out
  /-- `li t0, 1` -/
  | li
  /-- `amoswap.w.aq t0, t0, (pmtx)` -/
  | amoswap
  /-- `bnez t0` behind the exchange -/
  | bnez
  /-- `lw t0, 0(pmtx)` -/
  | lw
  /-- `bnez t0` behind the load -/
  | bnezLoad
  /-- `__sync_lock_test_and_set(lock, 1)` -/
  | testAndSet
  /-- the `while` on what it returned -/
  | whileSet
  /-- in the section -/
  | inside
  /-- `amoswap.w.rl x0, x0, (pmtx)` -/
  | release
  deriving DecidableEq, Repr

/-- The first instruction of each function. -/
def Kind.entry : Kind → Pc
  | .lock => .li
  | .ttasLock => .lw
  | .spinLock => .testAndSet

/-- A hart: its next instruction, `t0` (what the exchange of `spin_lock` returned), and what is left of its
section. -/
structure Hart (ρ δ : Type) where
  pc : Pc
  t0 : BitVec 32
  todo : List (Access ρ δ)

/-- The mutex, the harts' registers and the data, and the harts, with what has been done: `log` is the work
and the sections in the order in which the mutex was obtained, `issued` what each hart has asked for. -/
structure State (ι ρ δ : Type) where
  mtx : BitVec 32
  store : Store ι ρ δ
  hart : ι → Hart ρ δ
  log : List (ι × Task ρ δ)
  issued : ι → List (Task ρ δ)

/-- What a hart does next: work on its registers, call one of the functions for a section, or go on. -/
inductive Action (ρ δ : Type) where
  | work (f : ρ → ρ)
  | call (k : Kind) (accesses : List (Access ρ δ))
  | step

def State.setHart (s : State ι ρ δ) (h : ι) (x : Hart ρ δ) : State ι ρ δ :=
  { s with hart := Function.update s.hart h x }

def State.goto (s : State ι ρ δ) (h : ι) (pc : Pc) : State ι ρ δ :=
  s.setHart h { s.hart h with pc := pc }

/-- Exchange `v` for the word. -/
def State.swap (s : State ι ρ δ) (h : ι) (v : BitVec 32) (pc : Pc) : State ι ρ δ :=
  { s.setHart h { s.hart h with pc := pc, t0 := s.mtx } with
    mtx := v
    log := if s.mtx = 0#32 then s.log ++ [(h, .locked (s.hart h).todo)] else s.log }

def State.issue (s : State ι ρ δ) (h : ι) (t : Task ρ δ) : State ι ρ δ :=
  { s with issued := Function.update s.issued h (s.issued h ++ [t]) }

/-- One step of hart `h`. -/
def State.next (s : State ι ρ δ) (x : ι × Action ρ δ) : State ι ρ δ :=
  match (s.hart x.1).pc, x.2 with
  | .out, .work f =>
    { s.issue x.1 (.work f) with
      store := s.store.set x.1 (f (s.store.regs x.1), s.store.data)
      log := s.log ++ [(x.1, .work f)] }
  | .out, .call k accesses =>
    (s.setHart x.1 { s.hart x.1 with pc := k.entry, todo := accesses }).issue x.1 (.locked accesses)
  | .li, .step => s.setHart x.1 { s.hart x.1 with pc := .amoswap, t0 := 1#32 }
  | .amoswap, .step => s.swap x.1 (s.hart x.1).t0 .bnez
  -- `1b`, or `2b`: the exchange is repeated with the value it returned
  | .bnez, .step => s.goto x.1 (if (s.hart x.1).t0 = 0#32 then .inside else .amoswap)
  | .lw, .step => s.setHart x.1 { s.hart x.1 with pc := .bnezLoad, t0 := s.mtx }
  | .bnezLoad, .step => s.goto x.1 (if (s.hart x.1).t0 = 0#32 then .li else .lw)
  | .testAndSet, .step => s.swap x.1 1#32 .whileSet
  | .whileSet, .step => s.goto x.1 (if (s.hart x.1).t0 = 0#32 then .inside else .testAndSet)
  | .inside, .step =>
    match (s.hart x.1).todo with
    | [] => s.goto x.1 .release
    | a :: rest =>
      { s.setHart x.1 { s.hart x.1 with todo := rest } with
        store := s.store.set x.1 (a (s.store.regs x.1) s.store.data) }
  | .release, .step => { s.goto x.1 .out with mtx := 0#32 }
  | _, _ => s

/-- The mutex with the initialiser `0`, and harts that have not called. -/
def mutex (s₀ : Store ι ρ δ) : Machine (State ι ρ δ) (ι × Action ρ δ) where
  init := ⟨0#32, s₀, fun _ => ⟨.out, 0#32, []⟩, [], fun _ => []⟩
  next := State.next

/-! ## Who holds the mutex -/

/-- The hart has got a zero and has not stored one. -/
def Hart.holds (x : Hart ρ δ) : Bool :=
  match x.pc with
  | .bnez => x.t0 == 0#32
  | .whileSet => x.t0 == 0#32
  | .inside => true
  | .release => true
  | _ => false

/-- The hart has called and does not hold the mutex. -/
def Hart.waits (x : Hart ρ δ) : Bool := x.pc != .out && !x.holds

/-- The section a waiting hart has asked for. -/
def Hart.pending (x : Hart ρ δ) : List (Task ρ δ) := if x.waits then [.locked x.todo] else []

/-- What the log says of hart `h`. -/
def tasksOf (log : List (ι × Task ρ δ)) (h : ι) : List (Task ρ δ) :=
  (log.filter fun e => e.1 = h).map Prod.snd

@[simp] theorem tasksOf_concat_self (log : List (ι × Task ρ δ)) (h : ι) (t : Task ρ δ) :
    tasksOf (log ++ [(h, t)]) h = tasksOf log h ++ [t] := by
  simp [tasksOf]

theorem tasksOf_concat_ne (log : List (ι × Task ρ δ)) {g h : ι} (hne : g ≠ h) (t : Task ρ δ) :
    tasksOf (log ++ [(h, t)]) g = tasksOf log g := by
  simp [tasksOf, hne.symm]

/-- **The invariant**, with the hart that holds the mutex. -/
structure Inv (s₀ : Store ι ρ δ) (s : State ι ρ δ) (o : Option ι) : Prop where
  holder : ∀ h, (s.hart h).holds = true ↔ o = some h
  word : s.mtx = 0#32 ↔ o = none
  armed : ∀ h, (s.hart h).pc = .amoswap → (s.hart h).t0 ≠ 0#32
  done : ∀ h, (s.hart h).pc = .release → (s.hart h).todo = []
  agrees : Agrees s₀ s.log s.store (o.map fun h => (h, (s.hart h).todo))

/-- The log has, of each hart, what it has issued but for the section it waits for. -/
def Logged (s : State ι ρ δ) : Prop := ∀ h, s.issued h = tasksOf s.log h ++ (s.hart h).pending

variable {s₀ : Store ι ρ δ} {s : State ι ρ δ} {o : Option ι} {h : ι}

theorem Inv.start (s₀ : Store ι ρ δ) : Inv s₀ (mutex s₀).init none where
  holder h := by simp [mutex, Hart.holds]
  word := by simp [mutex]
  armed h hpc := by simp [mutex] at hpc
  done h _ := rfl
  agrees := Agrees.start s₀

@[simp] theorem setHart_self (s : State ι ρ δ) (h : ι) (x : Hart ρ δ) : (s.setHart h x).hart h = x := by
  simp [State.setHart]

theorem setHart_ne (s : State ι ρ δ) {g h : ι} (hne : g ≠ h) (x : Hart ρ δ) :
    (s.setHart h x).hart g = s.hart g := by
  simp [State.setHart, hne]

/-- What holds of all harts and of the new one holds of all harts after. -/
theorem forall_setHart {P : Hart ρ δ → Prop} {x : Hart ρ δ} (hs : ∀ g, P (s.hart g)) (hx : P x) (g : ι) :
    P ((s.setHart h x).hart g) := by
  by_cases hg : g = h
  · subst hg
    rwa [setHart_self]
  · rw [setHart_ne s hg]
    exact hs g

/-- The holder after hart `h` has become `x`. -/
theorem Inv.holder_setHart (hI : Inv s₀ s o) {x : Hart ρ δ} {o' : Option ι}
    (hself : x.holds = true ↔ o' = some h) (hother : ∀ g, g ≠ h → (o' = some g ↔ o = some g)) (g : ι) :
    ((s.setHart h x).hart g).holds = true ↔ o' = some g := by
  by_cases hg : g = h
  · subst hg
    rwa [setHart_self]
  · rw [setHart_ne s hg, hI.holder g, hother g hg]

/-- A hart goes on without touching the word and the data. -/
theorem Inv.setHart (hI : Inv s₀ s o) {x : Hart ρ δ} (hholds : x.holds = (s.hart h).holds)
    (htodo : x.holds = true → x.todo = (s.hart h).todo) (harmed : x.pc = .amoswap → x.t0 ≠ 0#32)
    (hdone : x.pc = .release → x.todo = []) : Inv s₀ (s.setHart h x) o where
  holder := hI.holder_setHart (by rw [hholds, hI.holder h]) fun _ _ => Iff.rfl
  word := hI.word
  armed := forall_setHart (P := fun x => x.pc = .amoswap → x.t0 ≠ 0#32) hI.armed harmed
  done := forall_setHart (P := fun x => x.pc = .release → x.todo = []) hI.done hdone
  agrees := by
    have hsame : o.map (fun g => (g, ((s.setHart h x).hart g).todo)) =
        o.map fun g => (g, (s.hart g).todo) := by
      rcases o with _ | g
      · rfl
      · by_cases hg : g = h
        · subst hg
          rw [Option.map_some, Option.map_some, setHart_self, htodo]
          rw [hholds, hI.holder g]
        · rw [Option.map_some, Option.map_some, setHart_ne s hg]
    rw [hsame]
    exact hI.agrees

theorem Hart.pending_of_waits {x : Hart ρ δ} (h : x.waits = true) : x.pending = [.locked x.todo] := by
  rw [Hart.pending, if_pos h]

theorem Hart.pending_of_not_waits {x : Hart ρ δ} (h : x.waits = false) : x.pending = [] := by
  rw [Hart.pending, h]
  rfl

theorem Hart.holds_of_waits {x : Hart ρ δ} (h : x.waits = true) : x.holds = false := by
  simp only [Hart.waits, Bool.and_eq_true, Bool.not_eq_true'] at h
  exact h.2

/-! ## One step -/

/-- What an exchange leaves of the hart: it holds the mutex exactly if it got a zero. -/
theorem holds_swapped {pc : Pc} (hpc : pc = .bnez ∨ pc = .whileSet) (v : BitVec 32)
    (todo : List (Access ρ δ)) : (⟨pc, v, todo⟩ : Hart ρ δ).holds = (v == 0#32) := by
  rcases hpc with rfl | rfl <;> rfl

/-- An exchange that returns a nonzero value changes nothing but the word. -/
theorem Inv.swap_taken (hI : Inv s₀ s o) {v : BitVec 32} {pc : Pc} (hwaits : (s.hart h).waits = true)
    (hv : v ≠ 0#32) (hpc : pc = .bnez ∨ pc = .whileSet) (hmtx : s.mtx ≠ 0#32) : Inv s₀ (s.swap h v pc) o := by
  have hnew : (⟨pc, s.mtx, (s.hart h).todo⟩ : Hart ρ δ).holds = false := by
    rw [holds_swapped hpc]
    simpa using hmtx
  have hset := hI.setHart (h := h) (x := ⟨pc, s.mtx, (s.hart h).todo⟩)
    (by rw [hnew, Hart.holds_of_waits hwaits]) (fun _ => rfl) (fun _ => hmtx)
    (fun hrel => by rcases hpc with rfl | rfl <;> exact absurd hrel (by simp))
  have hlog : (s.swap h v pc).log = s.log := if_neg hmtx
  refine ⟨hset.holder, ?_, hset.armed, hset.done, ?_⟩
  · have hword := hI.word
    simp only [State.swap, hv, false_iff]
    exact fun hnone => hmtx (hword.mpr hnone)
  · rw [hlog]
    exact hset.agrees

/-- An exchange that returns zero makes the hart the holder, and begins its section. -/
theorem Inv.swap_free (hI : Inv s₀ s o) {v : BitVec 32} {pc : Pc} (hv : v ≠ 0#32)
    (hpc : pc = .bnez ∨ pc = .whileSet) (hmtx : s.mtx = 0#32) : Inv s₀ (s.swap h v pc) (some h) := by
  obtain rfl := hI.word.mp hmtx
  have hhart : (s.swap h v pc).hart = (s.setHart h ⟨pc, s.mtx, (s.hart h).todo⟩).hart := rfl
  have hlog : (s.swap h v pc).log = s.log ++ [(h, .locked (s.hart h).todo)] := if_pos hmtx
  refine ⟨?_, ?_, ?_, ?_, ?_⟩
  · rw [hhart]
    apply hI.holder_setHart
    · simp [holds_swapped hpc, hmtx]
    · intro g hg
      simpa using hg.symm
  · simpa [State.swap] using hv
  · rw [hhart]
    apply forall_setHart (P := fun x => x.pc = .amoswap → x.t0 ≠ 0#32) hI.armed
    intro harm
    rcases hpc with rfl | rfl <;> exact absurd harm (by simp)
  · rw [hhart]
    apply forall_setHart (P := fun x => x.pc = .release → x.todo = []) hI.done
    intro hrel
    rcases hpc with rfl | rfl <;> exact absurd hrel (by simp)
  · rw [hlog, Option.map_some, hhart, setHart_self]
    exact hI.agrees.enter (s.hart h).todo

theorem Inv.work (hI : Inv s₀ s o) (hout : (s.hart h).pc = .out) (f : ρ → ρ) :
    Inv s₀ { s.issue h (.work f) with
      store := s.store.set h (f (s.store.regs h), s.store.data)
      log := s.log ++ [(h, .work f)] } o where
  holder := hI.holder
  word := hI.word
  armed := hI.armed
  done := hI.done
  agrees := by
    apply hI.agrees.work
    intro rest hrest
    obtain ⟨g, rfl, hg⟩ := Option.map_eq_some_iff.mp hrest
    obtain ⟨rfl, _⟩ := Prod.mk.inj hg
    have hholds := (hI.holder g).mpr rfl
    simp [Hart.holds, hout] at hholds

/-- The holder makes its next access. -/
theorem Inv.access (hI : Inv s₀ s o) {a : Access ρ δ} {rest : List (Access ρ δ)}
    (hpc : (s.hart h).pc = .inside) (htodo : (s.hart h).todo = a :: rest) :
    Inv s₀ { s.setHart h { s.hart h with todo := rest } with
      store := s.store.set h (a (s.store.regs h) s.store.data) } o := by
  have hholds : (s.hart h).holds = true := by simp [Hart.holds, hpc]
  obtain rfl := (hI.holder h).mp hholds
  refine ⟨?_, hI.word, ?_, ?_, ?_⟩
  · apply hI.holder_setHart
    · simp [Hart.holds, hpc]
    · exact fun _ _ => Iff.rfl
  · apply forall_setHart (P := fun x => x.pc = .amoswap → x.t0 ≠ 0#32) hI.armed
    exact fun harm => absurd (hpc.symm.trans harm) (by simp)
  · apply forall_setHart (P := fun x => x.pc = .release → x.todo = []) hI.done
    exact fun hrel => absurd (hpc.symm.trans hrel) (by simp)
  · have hagrees := hI.agrees
    rw [Option.map_some, htodo] at hagrees
    simp only [Option.map_some, setHart_self]
    exact hagrees.access

/-- The holder stores zero. -/
theorem Inv.release (hI : Inv s₀ s o) (hpc : (s.hart h).pc = .release) :
    Inv s₀ { s.goto h .out with mtx := 0#32 } none := by
  have hholds : (s.hart h).holds = true := by simp [Hart.holds, hpc]
  obtain rfl := (hI.holder h).mp hholds
  refine ⟨?_, by simp, ?_, ?_, ?_⟩
  · apply hI.holder_setHart
    · simp [Hart.holds]
    · intro g hg
      simpa using hg.symm
  · exact forall_setHart (P := fun x => x.pc = .amoswap → x.t0 ≠ 0#32) hI.armed
      fun harm => absurd harm (by simp)
  · exact forall_setHart (P := fun x => x.pc = .release → x.todo = []) hI.done
      fun hrel => absurd hrel (by simp)
  · have hagrees := hI.agrees
    rw [Option.map_some, hI.done h hpc] at hagrees
    exact hagrees.leave

/-- **Every step keeps the invariant.** -/
theorem Inv.next (hI : Inv s₀ s o) (x : ι × Action ρ δ) : ∃ o', Inv s₀ (s.next x) o' := by
  obtain ⟨h, a⟩ := x
  cases hpc : (s.hart h).pc <;> rcases a with f | ⟨k, accesses⟩ | _ <;> simp only [State.next, hpc]
  all_goals try exact ⟨o, hI⟩
  case out.work => exact ⟨o, hI.work hpc f⟩
  case out.call =>
    refine ⟨o, ?_⟩
    have hset := hI.setHart (h := h) (x := { s.hart h with pc := k.entry, todo := accesses })
      (by cases k <;> simp [Hart.holds, hpc, Kind.entry]) (fun hh => by cases k <;> cases hh)
      (fun harm => by cases k <;> cases harm) (fun hrel => by cases k <;> cases hrel)
    exact ⟨hset.holder, hset.word, hset.armed, hset.done, hset.agrees⟩
  case li.step =>
    exact ⟨o, hI.setHart (by simp [Hart.holds, hpc]) (fun hh => by cases hh) (fun _ => by simp)
      (fun hrel => by cases hrel)⟩
  case amoswap.step =>
    have hwaits : (s.hart h).waits = true := by simp [Hart.waits, Hart.holds, hpc]
    by_cases hmtx : s.mtx = 0#32
    · exact ⟨some h, hI.swap_free (hI.armed h hpc) (.inl rfl) hmtx⟩
    · exact ⟨o, hI.swap_taken hwaits (hI.armed h hpc) (.inl rfl) hmtx⟩
  case bnez.step =>
    refine ⟨o, hI.setHart ?_ (fun _ => rfl) ?_ ?_⟩
    · by_cases h0 : (s.hart h).t0 = 0#32 <;> simp [Hart.holds, hpc, h0]
    · intro harm h0
      rw [if_pos h0] at harm
      cases harm
    · intro hrel
      split at hrel <;> cases hrel
  case lw.step =>
    exact ⟨o, hI.setHart (by simp [Hart.holds, hpc]) (fun hh => by cases hh) (fun harm => by cases harm)
      (fun hrel => by cases hrel)⟩
  case bnezLoad.step =>
    refine ⟨o, hI.setHart ?_ (fun _ => rfl) ?_ ?_⟩
    · by_cases h0 : (s.hart h).t0 = 0#32 <;> simp [Hart.holds, hpc, h0]
    · intro harm
      split at harm <;> cases harm
    · intro hrel
      split at hrel <;> cases hrel
  case testAndSet.step =>
    have hwaits : (s.hart h).waits = true := by simp [Hart.waits, Hart.holds, hpc]
    by_cases hmtx : s.mtx = 0#32
    · exact ⟨some h, hI.swap_free (by decide) (.inr rfl) hmtx⟩
    · exact ⟨o, hI.swap_taken hwaits (by decide) (.inr rfl) hmtx⟩
  case whileSet.step =>
    refine ⟨o, hI.setHart ?_ (fun _ => rfl) ?_ ?_⟩
    · by_cases h0 : (s.hart h).t0 = 0#32 <;> simp [Hart.holds, hpc, h0]
    · intro harm
      split at harm <;> cases harm
    · intro hrel
      split at hrel <;> cases hrel
  case inside.step =>
    cases htodo : (s.hart h).todo with
    | nil =>
      exact ⟨o, hI.setHart (by simp [Hart.holds, hpc]) (fun _ => rfl) (fun harm => by cases harm)
        (fun _ => htodo)⟩
    | cons a rest =>
      have haccess := hI.access hpc htodo
      simp only [hpc] at haccess
      exact ⟨o, haccess⟩
  case release.step => exact ⟨none, hI.release hpc⟩

theorem Inv.run (s₀ : Store ι ρ δ) (xs : List (ι × Action ρ δ)) : ∃ o, Inv s₀ ((mutex s₀).run xs) o :=
  Machine.invariant_of_next (P := fun s => ∃ o, Inv s₀ s o) ⟨none, Inv.start s₀⟩
    (fun _ x ⟨_, hI⟩ => hI.next x) xs

/-! ## What a step changes -/

/-- A step changes no hart but its own. -/
theorem next_hart_ne {g : ι} (x : ι × Action ρ δ) (hne : g ≠ x.1) : (s.next x).hart g = s.hart g := by
  obtain ⟨h, a⟩ := x
  unfold State.next
  split <;> (try split) <;> simp_all [State.setHart, State.goto, State.swap, State.issue]

/-- The log grows by the work of a hart, or by the section of a waiting hart that finds the mutex free. -/
theorem log_next (x : ι × Action ρ δ) :
    (s.next x).log = s.log ∨ (∃ f, x.2 = .work f ∧ (s.next x).log = s.log ++ [(x.1, .work f)]) ∨
      ((s.hart x.1).waits = true ∧ s.mtx = 0#32 ∧
        (s.next x).log = s.log ++ [(x.1, .locked (s.hart x.1).todo)]) := by
  obtain ⟨h, a⟩ := x
  cases hpc : (s.hart h).pc <;> rcases a with f | ⟨k, accesses⟩ | _ <;> simp only [State.next, hpc]
  all_goals try exact .inl rfl
  all_goals try exact .inl trivial
  case out.work => exact .inr (.inl ⟨f, rfl, rfl⟩)
  case amoswap.step | testAndSet.step =>
    by_cases hmtx : s.mtx = 0#32
    · exact .inr (.inr ⟨by simp [Hart.waits, Hart.holds, hpc], hmtx, if_pos hmtx⟩)
    · exact .inl (if_neg hmtx)
  case inside.step => cases (s.hart h).todo <;> exact .inl rfl

/-- Registers change by work and by accesses; a hart that waits after a step makes neither. -/
theorem regs_next {x : ι × Action ρ δ} (hwork : ∀ f, x.2 ≠ .work f)
    (hwaits : ((s.next x).hart h).waits = true) : (s.next x).store.regs h = s.store.regs h := by
  obtain ⟨g, a⟩ := x
  cases hpc : (s.hart g).pc <;> rcases a with f | ⟨k, accesses⟩ | _ <;>
    simp only [State.next, hpc] at hwaits ⊢
  all_goals try rfl
  case out.work => exact absurd rfl (hwork f)
  case inside.step =>
    cases htodo : (s.hart g).todo with
    | nil => rfl
    | cons a rest =>
      simp only [htodo] at hwaits ⊢
      apply Store.set_regs_ne
      rintro rfl
      simp [State.setHart, Hart.waits, Hart.holds] at hwaits

/-- A hart that waits after a step has waited before with the same section, or has called for it just now. -/
theorem waits_before {x : ι × Action ρ δ} (hwaits : ((s.next x).hart h).waits = true) :
    ((s.hart h).waits = true ∧ ((s.next x).hart h).todo = (s.hart h).todo) ∨
      ∃ k, x = (h, .call k ((s.next x).hart h).todo) := by
  obtain ⟨g, a⟩ := x
  by_cases hg : h = g
  · subst hg
    cases hpc : (s.hart h).pc <;> rcases a with f | ⟨k, accesses⟩ | _ <;>
      simp only [State.next, hpc] at hwaits ⊢
    case out.call => exact .inr ⟨k, by simp [State.issue]⟩
    case out.work => simp [State.issue, Hart.waits, hpc] at hwaits
    case inside.step =>
      cases htodo : (s.hart h).todo <;>
        simp [htodo, State.setHart, State.goto, Hart.waits, Hart.holds] at hwaits
    case release.step => simp [State.goto, State.setHart, Hart.waits] at hwaits
    case amoswap.step | testAndSet.step =>
      exact .inl ⟨by simp [Hart.waits, Hart.holds, hpc], by simp [State.swap]⟩
    case bnez.step | whileSet.step =>
      by_cases h0 : (s.hart h).t0 = 0#32
      · simp [h0, State.goto, Hart.waits, Hart.holds] at hwaits
      · exact .inl ⟨by simp [Hart.waits, Hart.holds, hpc, h0], by simp [State.goto]⟩
    case li.step | lw.step | bnezLoad.step =>
      exact .inl ⟨by simp [Hart.waits, Hart.holds, hpc], by simp [State.goto]⟩
    all_goals exact .inl ⟨hwaits, by simp⟩
  · rw [next_hart_ne ⟨g, a⟩ hg] at hwaits ⊢
    exact .inl ⟨hwaits, rfl⟩

/-! ## What has been issued -/

theorem Logged.setHart (hL : Logged s) {x : Hart ρ δ} (hx : x.pending = (s.hart h).pending) :
    Logged (s.setHart h x) := by
  intro g
  by_cases hg : g = h
  · subst hg
    rw [setHart_self, hx]
    exact hL g
  · rw [setHart_ne s hg]
    exact hL g

theorem Logged.swap (hL : Logged s) {v : BitVec 32} {pc : Pc} (hwaits : (s.hart h).waits = true)
    (hpc : pc = .bnez ∨ pc = .whileSet) : Logged (s.swap h v pc) := by
  have hhart : (s.swap h v pc).hart = (s.setHart h ⟨pc, s.mtx, (s.hart h).todo⟩).hart := rfl
  have hnew : (⟨pc, s.mtx, (s.hart h).todo⟩ : Hart ρ δ).waits = !(s.mtx == 0#32) := by
    rw [Hart.waits, holds_swapped hpc]
    rcases hpc with rfl | rfl <;> rfl
  intro g
  have hissued := hL g
  by_cases hg : g = h
  · subst hg
    rw [Hart.pending_of_waits hwaits] at hissued
    rw [hhart, setHart_self]
    by_cases hmtx : s.mtx = 0#32
    · have hlog : (s.swap g v pc).log = s.log ++ [(g, .locked (s.hart g).todo)] := if_pos hmtx
      rw [hlog, tasksOf_concat_self, Hart.pending_of_not_waits (hnew.trans (by simp [hmtx])), List.append_nil]
      exact hissued
    · have hlog : (s.swap g v pc).log = s.log := if_neg hmtx
      rw [hlog, Hart.pending_of_waits (hnew.trans (by simp [hmtx]))]
      exact hissued
  · rw [hhart, setHart_ne s hg]
    have hlog : tasksOf (s.swap h v pc).log g = tasksOf s.log g := by
      simp only [State.swap]
      split
      · exact tasksOf_concat_ne _ hg _
      · rfl
    rw [hlog]
    exact hissued

theorem Logged.next (hL : Logged s) (x : ι × Action ρ δ) : Logged (s.next x) := by
  obtain ⟨h, a⟩ := x
  cases hpc : (s.hart h).pc <;> rcases a with f | ⟨k, accesses⟩ | _ <;> simp only [State.next, hpc]
  all_goals try exact hL
  case out.work =>
    intro g
    have hissued := hL g
    by_cases hg : g = h
    · subst hg
      have hpending : (s.hart g).pending = [] := by simp [Hart.pending, Hart.waits, hpc]
      rw [hpending, List.append_nil] at hissued
      simp [State.issue, hissued, hpending]
    · simpa [State.issue, hg, tasksOf_concat_ne s.log hg] using hissued
  case out.call =>
    intro g
    have hissued := hL g
    by_cases hg : g = h
    · subst hg
      have hpending : (s.hart g).pending = [] := by simp [Hart.pending, Hart.waits, hpc]
      have hnew : ({ s.hart g with pc := k.entry, todo := accesses } : Hart ρ δ).waits = true := by
        cases k <;> rfl
      rw [hpending, List.append_nil] at hissued
      simp [State.issue, State.setHart, hissued, Hart.pending_of_waits hnew]
    · simpa [State.issue, State.setHart, hg] using hissued
  case inside.step =>
    cases htodo : (s.hart h).todo with
    | nil => exact hL.setHart (by simp [Hart.pending, Hart.waits, Hart.holds, hpc])
    | cons a rest => exact hL.setHart (by simp [Hart.pending, Hart.waits, Hart.holds, hpc])
  case amoswap.step => exact hL.swap (by simp [Hart.waits, Hart.holds, hpc]) (.inl rfl)
  case testAndSet.step => exact hL.swap (by simp [Hart.waits, Hart.holds, hpc]) (.inr rfl)
  case release.step => exact hL.setHart (by simp [Hart.pending, Hart.waits, Hart.holds, hpc])
  case bnez.step | bnezLoad.step | whileSet.step =>
    refine hL.setHart ?_
    by_cases h0 : (s.hart h).t0 = 0#32 <;> simp [Hart.pending, Hart.waits, Hart.holds, hpc, h0]
  all_goals exact hL.setHart (by simp [Hart.pending, Hart.waits, Hart.holds, hpc])

theorem Logged.run (s₀ : Store ι ρ δ) (xs : List (ι × Action ρ δ)) : Logged ((mutex s₀).run xs) := by
  apply Machine.invariant_of_next (P := Logged)
  · intro h
    simp [mutex, tasksOf, Hart.pending, Hart.waits]
  · exact fun _ x hL => hL.next x

/-- **Sections are serial.**  In every run one hart at most holds the mutex, and the word is zero exactly when
none does.  What each hart has issued, but for the section it waits for, is in the log in the hart's order;
and registers and data are those of the log with each section executed at once, the last one up to the
accesses the holder has still to make. -/
theorem sections_serial (s₀ : Store ι ρ δ) (xs : List (ι × Action ρ δ)) :
    let s := (mutex s₀).run xs
    (∀ g h, (s.hart g).holds = true → (s.hart h).holds = true → g = h) ∧
    (s.mtx = 0#32 ↔ ∀ h, (s.hart h).holds = false) ∧
    (∀ h, s.issued h = tasksOf s.log h ++ (s.hart h).pending) ∧
    ((∀ h, (s.hart h).holds = false) → s.store = replay s₀ s.log) ∧
    (∀ h, (s.hart h).holds = true →
      replay s₀ s.log = s.store.set h (exec (s.hart h).todo (s.store.regs h) s.store.data)) := by
  intro s
  obtain ⟨o, hI⟩ := Inv.run s₀ xs
  have hnone : o = none ↔ ∀ h, (s.hart h).holds = false := by
    constructor
    · intro ho h
      rw [← Bool.not_eq_true, hI.holder h, ho]
      simp
    · intro hall
      rcases o with _ | h
      · rfl
      · have hh := (hI.holder h).mpr rfl
        rw [hall h] at hh
        cases hh
  refine ⟨?_, hI.word.trans hnone, Logged.run s₀ xs, ?_, ?_⟩
  · intro g h hg hh
    exact Option.some.inj (((hI.holder g).mp hg).symm.trans ((hI.holder h).mp hh))
  · intro hall
    have hagrees := hI.agrees
    rw [hnone.mpr hall] at hagrees
    exact hagrees.symm
  · intro h hh
    have hagrees := hI.agrees
    rw [(hI.holder h).mp hh] at hagrees
    exact hagrees

/-! ## Progress -/

/-- The action is a step of hart `h`. -/
def isStep (h : ι) (x : ι × Action ρ δ) : Bool :=
  match x.2 with
  | .step => x.1 = h
  | _ => false

/-- A waiting hart gets the mutex by this step. -/
def Obtains (s : State ι ρ δ) (x : ι × Action ρ δ) : Prop :=
  (s.hart x.1).waits = true ∧ ((s.next x).hart x.1).holds = true

/-- Steps of its own a waiting hart is from having made its exchange, when the mutex is free. -/
def Hart.distance (x : Hart ρ δ) : Nat :=
  match x.pc with
  | .li => 2
  | .lw => 4
  | .bnez => 2
  | .bnezLoad => if x.t0 = 0#32 then 3 else 5
  | .whileSet => 2
  | _ => 1

theorem Hart.distance_pos (x : Hart ρ δ) : 0 < x.distance := by
  unfold Hart.distance
  split <;> (try split) <;> omega

theorem Hart.distance_le (x : Hart ρ δ) : x.distance ≤ 5 := by
  unfold Hart.distance
  split <;> (try split) <;> omega

/-- A hart that has not called does not hold the mutex after its step. -/
theorem holds_next_of_out {x : ι × Action ρ δ} (hout : (s.hart x.1).pc = .out) :
    ((s.next x).hart x.1).holds = false := by
  obtain ⟨h, a⟩ := x
  rcases a with f | ⟨k, accesses⟩ | _ <;> simp only [State.next, hout]
  · simp [State.issue, Hart.holds, hout]
  · cases k <;> simp [State.issue, State.setHart, Hart.holds, Kind.entry]
  · simp [Hart.holds, hout]

/-- A free mutex that nobody obtains stays free. -/
theorem Inv.free_next (hI : Inv s₀ s none) {x : ι × Action ρ δ} (hno : ¬ Obtains s x) :
    Inv s₀ (s.next x) none := by
  have hbefore : ∀ g, (s.hart g).holds = false := by
    intro g
    rw [← Bool.not_eq_true, hI.holder g]
    simp
  obtain ⟨o', hI'⟩ := hI.next x
  rcases o' with _ | g
  · exact hI'
  · have hafter := (hI'.holder g).mpr rfl
    by_cases hg : g = x.1
    · subst hg
      have hcalled : (s.hart x.1).pc ≠ .out := by
        intro hout
        rw [holds_next_of_out hout] at hafter
        cases hafter
      exact absurd ⟨by simp [Hart.waits, hcalled, hbefore], hafter⟩ hno
    · rw [next_hart_ne x hg, hbefore g] at hafter
      cases hafter

/-- A hart that has called only goes on. -/
theorem next_of_not_step {x : ι × Action ρ δ} (hout : (s.hart x.1).pc ≠ .out) (hx : isStep x.1 x = false) :
    s.next x = s := by
  obtain ⟨g, a⟩ := x
  cases a with
  | work f => cases hpc : (s.hart g).pc <;> simp_all [State.next]
  | call k accesses => cases hpc : (s.hart g).pc <;> simp_all [State.next]
  | step => simp [isStep] at hx

/-- A step of a waiting hart that does not obtain the free mutex brings it nearer to its exchange. -/
theorem waits_step (hfree : s.mtx = 0#32) (hno : ¬ Obtains s (h, .step)) (hwaits : (s.hart h).waits = true) :
    ((s.next (h, .step)).hart h).waits = true ∧
      ((s.next (h, .step)).hart h).distance + 1 ≤ (s.hart h).distance := by
  cases hpc : (s.hart h).pc <;> simp only [Obtains, hwaits, true_and, State.next, hpc] at hno ⊢
  case li => simp [Hart.waits, Hart.holds, Hart.distance, hpc]
  case lw => simp [Hart.waits, Hart.holds, Hart.distance, hpc, hfree]
  case amoswap => exact absurd (by simp [State.swap, Hart.holds, hfree]) hno
  case testAndSet => exact absurd (by simp [State.swap, Hart.holds, hfree]) hno
  case bnezLoad =>
    by_cases h0 : (s.hart h).t0 = 0#32 <;>
      simp [State.goto, Hart.waits, Hart.holds, Hart.distance, hpc, h0]
  case bnez | whileSet =>
    have h0 : (s.hart h).t0 ≠ 0#32 := by simpa [Hart.waits, Hart.holds, hpc] using hwaits
    simp [State.goto, Hart.waits, Hart.holds, Hart.distance, hpc, h0]
  case out | inside | release => simp [Hart.waits, Hart.holds, hpc] at hwaits

/-- A waiting hart does not make five steps of its own before some hart obtains a free mutex. -/
theorem free_taken (s₀ : Store ι ρ δ) (pre mid : List (ι × Action ρ δ)) (h : ι)
    (hfree : ((mutex s₀).run pre).mtx = 0#32) (hwaits : (((mutex s₀).run pre).hart h).waits = true)
    (hmany : 5 ≤ (mid.filter (isStep h)).length) :
    ∃ as x bs, mid = as ++ x :: bs ∧ Obtains ((mutex s₀).run (pre ++ as)) x := by
  obtain ⟨o, hI⟩ := Inv.run s₀ pre
  obtain rfl := hI.word.mp hfree
  apply Machine.happens_within (P := fun s => Inv s₀ s none ∧ (s.hart h).waits = true) (O := isStep h)
    (μ := fun s => (s.hart h).distance)
  · exact fun s _ => Hart.distance_pos _
  · rintro s x ⟨hI, hwaits⟩ hno
    have hfree := hI.word.mpr rfl
    have hcalled : (s.hart h).pc ≠ .out := by
      intro hout
      simp [Hart.waits, hout] at hwaits
    by_cases hx : x.1 = h
    · subst hx
      cases hstep : isStep x.1 x with
      | true =>
        obtain ⟨g, _ | _ | _⟩ := x <;> simp [isStep] at hstep
        obtain ⟨hwaits', hlt⟩ := waits_step hfree hno hwaits
        exact ⟨⟨hI.free_next hno, hwaits'⟩, by simpa [mutex, isStep] using hlt⟩
      | false =>
        have hsame : (mutex s₀).next s x = s := next_of_not_step hcalled hstep
        simpa [hsame] using ⟨hI, hwaits⟩
    · have hnot : isStep h x = false := by
        obtain ⟨g, _ | _ | _⟩ := x <;> simp_all [isStep]
      have hsame : ((mutex s₀).next s x).hart h = s.hart h := next_hart_ne x (Ne.symm hx)
      rw [hsame, hnot]
      exact ⟨⟨hI.free_next hno, hwaits⟩, by simp⟩
  · exact ⟨hI, hwaits⟩
  · have hle := Hart.distance_le (((mutex s₀).run pre).hart h)
    omega

/-! ## The holder -/

/-- The holder `h` stores zero by this step. -/
def Releases (s : State ι ρ δ) (h : ι) (x : ι × Action ρ δ) : Prop :=
  (s.hart h).holds = true ∧ ((s.next x).hart h).holds = false ∧ (s.next x).mtx = 0#32

/-- Steps the holder needs for its release. -/
def Hart.remaining (x : Hart ρ δ) : Nat :=
  match x.pc with
  | .inside => x.todo.length + 2
  | .release => 1
  | _ => x.todo.length + 3

theorem Hart.remaining_pos (x : Hart ρ δ) : 0 < x.remaining := by
  unfold Hart.remaining
  split <;> omega

theorem Hart.remaining_le (x : Hart ρ δ) : x.remaining ≤ x.todo.length + 3 := by
  unfold Hart.remaining
  split <;> omega

/-- A step of the holder that does not release the mutex brings it nearer to its release. -/
theorem holds_step (hno : ¬ Releases s h (h, .step)) (hholds : (s.hart h).holds = true) :
    ((s.next (h, .step)).hart h).holds = true ∧
      ((s.next (h, .step)).hart h).remaining + 1 ≤ (s.hart h).remaining := by
  cases hpc : (s.hart h).pc <;> simp only [Releases, hholds, true_and, State.next, hpc] at hno ⊢
  case inside =>
    cases htodo : (s.hart h).todo with
    | nil => simp [State.goto, Hart.holds, Hart.remaining, hpc, htodo]
    | cons a rest => simp [Hart.holds, Hart.remaining, hpc, htodo]
  case release => exact absurd (by simp [State.goto, Hart.holds]) hno
  case bnez | whileSet =>
    have h0 : (s.hart h).t0 = 0#32 := by simpa [Hart.holds, hpc] using hholds
    simp [State.goto, Hart.holds, Hart.remaining, hpc, h0]
  case out | li | amoswap | lw | bnezLoad | testAndSet => simp [Hart.holds, hpc] at hholds

/-- The holder gives the mutex back before it has made `n + 3` steps, with `n` accesses left to make. -/
theorem held_released (s₀ : Store ι ρ δ) (pre mid : List (ι × Action ρ δ)) (h : ι)
    (hholds : (((mutex s₀).run pre).hart h).holds = true)
    (hmany : (((mutex s₀).run pre).hart h).todo.length + 3 ≤ (mid.filter (isStep h)).length) :
    ∃ as x bs, mid = as ++ x :: bs ∧ Releases ((mutex s₀).run (pre ++ as)) h x := by
  apply Machine.happens_within (P := fun s => (s.hart h).holds = true) (E := fun s x => Releases s h x)
    (O := isStep h) (μ := fun s => (s.hart h).remaining)
  · exact fun s _ => Hart.remaining_pos _
  · intro s x hholds hno
    have hcalled : (s.hart h).pc ≠ .out := by
      intro hout
      simp [Hart.holds, hout] at hholds
    by_cases hx : x.1 = h
    · subst hx
      cases hstep : isStep x.1 x with
      | true =>
        obtain ⟨g, _ | _ | _⟩ := x <;> simp [isStep] at hstep
        obtain ⟨hholds', hlt⟩ := holds_step hno hholds
        exact ⟨hholds', by simpa [mutex, isStep] using hlt⟩
      | false =>
        have hsame : (mutex s₀).next s x = s := next_of_not_step hcalled hstep
        simpa [hsame] using hholds
    · have hnot : isStep h x = false := by
        obtain ⟨g, _ | _ | _⟩ := x <;> simp_all [isStep]
      have hsame : ((mutex s₀).next s x).hart h = s.hart h := next_hart_ne x (Ne.symm hx)
      rw [hsame, hnot]
      exact ⟨hholds, by simp⟩
  · exact hholds
  · have hle := Hart.remaining_le (((mutex s₀).run pre).hart h)
    omega

/-- **No deadlock.**  Whatever the other harts do and whichever functions they use: a holder with `n` accesses
left to make has given the mutex back before it has made `n + 3` steps, and no hart waits for five steps of
its own with the mutex free before some hart obtains it. -/
theorem mutex_progress (s₀ : Store ι ρ δ) (pre mid : List (ι × Action ρ δ)) (h : ι) :
    ((((mutex s₀).run pre).hart h).holds = true →
      (((mutex s₀).run pre).hart h).todo.length + 3 ≤ (mid.filter (isStep h)).length →
      ∃ as x bs, mid = as ++ x :: bs ∧ Releases ((mutex s₀).run (pre ++ as)) h x) ∧
    (((mutex s₀).run pre).mtx = 0#32 → (((mutex s₀).run pre).hart h).waits = true →
      5 ≤ (mid.filter (isStep h)).length →
      ∃ as x bs, mid = as ++ x :: bs ∧ Obtains ((mutex s₀).run (pre ++ as)) x) :=
  ⟨held_released s₀ pre mid h, free_taken s₀ pre mid h⟩

/-- One of two harts waits for a free mutex and makes five steps; and it makes four when it holds the mutex
for one access. -/
theorem mutex_progress_two :
    let s₀ : Store Bool Nat Nat := ⟨fun _ => 0, 7⟩
    let pre : List (Bool × Action Nat Nat) := [(true, .call .ttasLock [fun _ d => (d, d + 1)])]
    (∃ as x bs, List.replicate 4 (true, Action.step) = as ++ x :: bs ∧
      Releases ((mutex s₀).run (pre ++ List.replicate 4 (true, Action.step) ++ as)) true x) ∧
    ∃ as x bs, List.replicate 5 (true, Action.step) = as ++ x :: bs ∧
      Obtains ((mutex s₀).run (pre ++ as)) x :=
  ⟨(mutex_progress ⟨fun _ => 0, 7⟩
      ([(true, .call .ttasLock [fun _ d => (d, d + 1)])] ++ List.replicate 4 (true, .step))
      (List.replicate 4 (true, .step)) true).1 rfl (by decide),
    (mutex_progress ⟨fun _ => 0, 7⟩ [(true, .call .ttasLock [fun _ d => (d, d + 1)])]
      (List.replicate 5 (true, .step)) true).2 rfl rfl (by decide)⟩

end Mutex

end CachePool
