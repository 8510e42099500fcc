import CachePool.Omp.Dispatch
import CachePool.Runtime.Mutex

/-!
# Dynamic scheduling under `eu_mutex`

`__kmpc_dispatch_init_4` and `__kmpc_dispatch_next_4` access by access: each takes `eu_mutex` with
`snrt_mutex_lock`, loads and stores the fields of `omp_team_t` one at a time, and releases the mutex.  A
thread's pointers `p_lb`, `p_ub` and `p_last` lead to its own variables.

* `initAccesses`, `nextAccesses` — the two bodies; `exec_initAccesses`, `exec_nextAccesses` — executed at
  once they are `dispatchInit4` and `dispatchNext4`.
* `Sim` — the team and what each thread knows, in the model where a call is one step and here.
* `dispatch_guarded` — threads whose accesses interleave in any way see what they see when each call is one
  step, in the order in which they got the mutex.
-/

set_option autoImplicit false

namespace CachePool

namespace Omp

open Serial Mutex

/-- The variables of a thread: where it is in its loops, the chunks it has got, and the locals of the two
functions. -/
structure Locals where
  th : Thread
  got : List (Nat × Int × Int × Bool)
  isSetup : Bool
  start : Int
  chunk : Int
  drained : Bool
  lb : Int
  ub : Int
  atEnd : Bool
  deriving DecidableEq, Repr

/-- The body of `__kmpc_dispatch_init_4`, an access a line.  With the last one the thread is in its loop. -/
def initAccesses (lp : Loop) : List (Access Locals Team) :=
  [ fun r m => ({ r with isSetup := m.loopIsSetup }, m),
    fun r m => (r, if r.isSetup then m else { m with loopIsSetup := true }),
    fun r m => (r, if r.isSetup then m else { m with loopStart := lp.lb }),
    fun r m => (r, if r.isSetup then m else { m with loopEnd := lp.ub }),
    fun r m => (r, if r.isSetup then m else { m with loopIncr := lp.st }),
    fun r m =>
      ({ r with th := { r.th with inLoop := true, last := false } },
        if r.isSetup then m else { m with loopChunk := lp.chunk }) ]

/-- What the thread does with the result of `__kmpc_dispatch_next_4`. -/
def Locals.returned (r : Locals) : Locals :=
  if r.drained then { r with th := { loop := r.th.loop + 1, inLoop := false, last := false } }
  else { r with got := r.got ++ [(r.th.loop, r.lb, r.ub, r.th.last)] }

/-- The body of `__kmpc_dispatch_next_4`, an access a line; `drained` is the early return. -/
def nextAccesses : List (Access Locals Team) :=
  [ fun r m => ({ r with start := m.loopStart }, m),
    fun r m => ({ r with drained := decide (m.loopEnd < r.start) }, m),
    fun r m => (r, if r.drained then { m with loopIsSetup := false } else m),
    fun r m => (if r.drained then r else { r with lb := m.loopStart }, m),
    fun r m => (if r.drained then r else { r with ub := toInt32 (toInt32 (r.lb + m.loopChunk) - 1) }, m),
    fun r m => ({ r with atEnd := !r.drained && decide (m.loopEnd ≤ r.ub) }, m),
    fun r m => (if r.atEnd then { r with ub := m.loopEnd, th := { r.th with last := true } } else r, m),
    fun r m => (if r.drained then r else { r with start := m.loopStart }, m),
    fun r m => (if r.drained then r else { r with chunk := m.loopChunk }, m),
    fun r m => (r.returned, if r.drained then m else { m with loopStart := toInt32 (r.start + r.chunk) }) ]

/-- What a thread calls next; nothing once it is through with all loops. -/
def bodyOf (loops : List Loop) (r : Locals) : Option (List (Access Locals Team)) :=
  match loops[r.th.loop]? with
  | none => none
  | some lp => some (if r.th.inLoop then nextAccesses else initAccesses lp)

/-! ## The bodies at once -/

theorem exec_initAccesses (lp : Loop) (r : Locals) (m : Team) :
    exec (initAccesses lp) r m =
      ({ r with isSetup := m.loopIsSetup, th := { r.th with inLoop := true, last := false } },
        dispatchInit4 m lp) := by
  cases hsetup : m.loopIsSetup <;> simp [initAccesses, dispatchInit4, hsetup]

theorem exec_nextAccesses_drained {r : Locals} {m : Team} (h : m.loopEnd < m.loopStart) :
    (exec nextAccesses r m).2 = (dispatchNext4 m r.th.last).2 ∧
    (exec nextAccesses r m).1.th = { loop := r.th.loop + 1, inLoop := false, last := false } ∧
    (exec nextAccesses r m).1.got = r.got := by
  simp [nextAccesses, dispatchNext4, Locals.returned, h]

theorem exec_nextAccesses_chunk {r : Locals} {m : Team} (h : ¬ m.loopEnd < m.loopStart) {lb ub : Int}
    {last : Bool} {m' : Team} (hnext : dispatchNext4 m r.th.last = (some (lb, ub, last), m')) :
    (exec nextAccesses r m).2 = m' ∧
    (exec nextAccesses r m).1.th = { r.th with last := last } ∧
    (exec nextAccesses r m).1.got = r.got ++ [(r.th.loop, lb, ub, last)] := by
  simp only [dispatchNext4, h, if_false] at hnext
  by_cases hub : m.loopEnd ≤ toInt32 (toInt32 (m.loopStart + m.loopChunk) - 1)
  · simp only [hub, if_true, Prod.mk.injEq, Option.some.injEq] at hnext
    obtain ⟨⟨rfl, rfl, rfl⟩, rfl⟩ := hnext
    simp [nextAccesses, Locals.returned, h, hub]
  · simp only [hub, if_false, Prod.mk.injEq, Option.some.injEq] at hnext
    obtain ⟨⟨rfl, rfl, rfl⟩, rfl⟩ := hnext
    simp [nextAccesses, Locals.returned, h, hub]

/-! ## Calls as one step -/

variable {n : Nat}

/-- The chunks thread `t` has got. -/
def Sys.gotBy (d : Sys n) (t : Fin n) : List (Nat × Int × Int × Bool) :=
  (d.chunks.filter fun c => c.thread = t).map fun c => (c.loop, c.lb, c.ub, c.last)

/-- **The simulation relation**: the team, where each thread is, and what it has got. -/
structure Sim (d : Sys n) (σ : Store (Fin n) Locals Team) : Prop where
  team : d.team = σ.data
  thread : ∀ t, d.threads t = (σ.regs t).th
  got : ∀ t, d.gotBy t = (σ.regs t).got

theorem Sim.set {d d' : Sys n} {σ : Store (Fin n) Locals Team} (hsim : Sim d σ) {t : Fin n} {r : Locals}
    {m : Team} (hteam : d'.team = m) (hself : d'.threads t = r.th) (hgot : d'.gotBy t = r.got)
    (hothers : ∀ g, g ≠ t → d'.threads g = d.threads g ∧ d'.gotBy g = d.gotBy g) :
    Sim d' (σ.set t (r, m)) where
  team := hteam
  thread g := by
    by_cases hg : g = t
    · subst hg
      rw [hself, Store.set_regs_self]
    · rw [(hothers g hg).1, Store.set_regs_ne σ hg, hsim.thread g]
  got g := by
    by_cases hg : g = t
    · subst hg
      rw [hgot, Store.set_regs_self]
    · rw [(hothers g hg).2, Store.set_regs_ne σ hg, hsim.got g]

/-- A body executed at once is the step of the model. -/
theorem Sim.next {loops : List Loop} {d : Sys n} {σ : Store (Fin n) Locals Team} (hsim : Sim d σ) {t : Fin n}
    {accesses : List (Access Locals Team)} (hbody : bodyOf loops (σ.regs t) = some accesses) :
    Sim (d.next loops t) (σ.set t (exec accesses (σ.regs t) σ.data)) := by
  unfold bodyOf at hbody
  split at hbody
  · cases hbody
  · rename_i lp hloop
    obtain rfl := Option.some.inj hbody
    have hloop' : loops[(d.threads t).loop]? = some lp := by rw [hsim.thread t, hloop]
    have hgot := hsim.got t
    simp only [Sys.next, hloop']
    by_cases hin : (σ.regs t).th.inLoop = true
    · have hin' : (d.threads t).inLoop = true := by rw [hsim.thread t, hin]
      rw [if_pos hin, if_pos hin', hsim.team, hsim.thread t]
      by_cases hdrained : σ.data.loopEnd < σ.data.loopStart
      · have hout := exec_nextAccesses_drained (r := σ.regs t) hdrained
        generalize exec nextAccesses (σ.regs t) σ.data = out at hout
        obtain ⟨hm, hth, hg⟩ := hout
        have hd : dispatchNext4 σ.data (σ.regs t).th.last = (none, { σ.data with loopIsSetup := false }) := by
          simp [dispatchNext4, hdrained]
        rw [hd] at hm ⊢
        exact hsim.set hm.symm (by simp [Sys.setThread, hth]) (by rw [hg]; exact hgot)
          fun g hne => ⟨by simp [Sys.setThread, hne], rfl⟩
      · rcases hd : dispatchNext4 σ.data (σ.regs t).th.last with ⟨_ | ⟨lb, ub, last⟩, m'⟩
        · simp [dispatchNext4, hdrained] at hd
        · have hout := exec_nextAccesses_chunk hdrained hd
          generalize exec nextAccesses (σ.regs t) σ.data = out at hout
          obtain ⟨hm, hth, hg⟩ := hout
          refine hsim.set hm.symm (by simp [Sys.setThread, hth]) ?_ fun g hne =>
            ⟨by simp [Sys.setThread, hne], ?_⟩
          · rw [hg, ← hgot]
            simp [Sys.gotBy, Sys.setThread]
          · simp [Sys.gotBy, Sys.setThread, Ne.symm hne]
    · have hin' : ¬ (d.threads t).inLoop = true := by rwa [hsim.thread t]
      rw [if_neg hin, if_neg hin', exec_initAccesses]
      exact hsim.set (by rw [hsim.team]; rfl) (by simp [Sys.setThread, hsim.thread t]) hgot
        fun g hne => ⟨by simp [Sys.setThread, hne], rfl⟩

/-! ## Calls access by access -/

/-- A thread that has called nothing. -/
def Locals.fresh : Locals := ⟨⟨0, false, false⟩, [], false, 0, 0, false, 0, 0, false⟩

/-- The team as `omp_init` leaves it, and threads that have called nothing. -/
def startStore (n : Nat) (team : Team) : Store (Fin n) Locals Team :=
  ⟨fun _ => Locals.fresh, { team with loopIsSetup := false }⟩

/-- A thread calls what is next for it, or goes on in the call it is in. -/
inductive Move where
  | call
  | step
  deriving DecidableEq, Repr

def Move.action (loops : List Loop) (r : Locals) : Move → Action Locals Team
  | .step => .step
  | .call =>
    match bodyOf loops r with
    | none => .step
    | some accesses => .call .lock accesses

/-- Threads that call the two functions for their loops, their accesses interleaved in any way. -/
def guarded (n : Nat) (loops : List Loop) (team : Team) :
    Machine (State (Fin n) Locals Team) (Fin n × Move) where
  init := (mutex (startStore n team)).init
  next s x := s.next (x.1, x.2.action loops (s.store.regs x.1))

theorem sim_start (n : Nat) (loops : List Loop) (team : Team) :
    Sim (Sys.machine n loops team).init (startStore n team) where
  team := rfl
  thread _ := rfl
  got _ := rfl

/-- The harts in the order in which they got the mutex. -/
def orderOf (s : State (Fin n) Locals Team) : List (Fin n) := s.log.map Prod.fst

/-- **The invariant**: a waiting thread asks for what is next for it, and the sections entered so far are the
calls of the model, one step each. -/
structure Guarded (loops : List Loop) (team : Team) (s : State (Fin n) Locals Team) : Prop where
  mutex : ∃ o, Inv (startStore n team) s o
  asks : ∀ h, (s.hart h).waits = true → bodyOf loops (s.store.regs h) = some (s.hart h).todo
  serial : Sim ((Sys.machine n loops team).run (orderOf s)) (replay (startStore n team) s.log)

variable {loops : List Loop} {team : Team} {s : State (Fin n) Locals Team}

theorem Guarded.start (n : Nat) (loops : List Loop) (team : Team) :
    Guarded loops team (guarded n loops team).init where
  mutex := ⟨none, Inv.start _⟩
  asks h hwaits := by simp [guarded, Mutex.mutex, Hart.waits] at hwaits
  serial := sim_start n loops team

/-- Threads do not work on their own between the calls. -/
theorem action_ne_work (r : Locals) (m : Move) (f : Locals → Locals) : m.action loops r ≠ .work f := by
  cases m with
  | step => simp [Move.action]
  | call =>
    unfold Move.action
    dsimp only
    split <;> simp

/-- A call is for what is next. -/
theorem bodyOf_of_call {r : Locals} {m : Move} {k : Kind} {accesses : List (Access Locals Team)}
    (h : m.action loops r = .call k accesses) : bodyOf loops r = some accesses := by
  cases m with
  | step => simp [Move.action] at h
  | call =>
    unfold Move.action at h
    dsimp only at h
    split at h
    · cases h
    · rename_i body hbody
      cases h
      exact hbody

theorem Guarded.next (hG : Guarded loops team s) (x : Fin n × Move) :
    Guarded loops team ((guarded n loops team).next s x) := by
  obtain ⟨o, hI⟩ := hG.mutex
  have hwork : ∀ f, x.2.action loops (s.store.regs x.1) ≠ .work f := action_ne_work _ _
  refine ⟨hI.next _, fun h hwaits => ?_, ?_⟩
  · simp only [guarded] at hwaits ⊢
    rw [regs_next hwork hwaits]
    rcases waits_before hwaits with ⟨hbefore, htodo⟩ | ⟨k, hcall⟩
    · rw [htodo]
      exact hG.asks h hbefore
    · obtain ⟨rfl, hcall⟩ := Prod.mk.inj hcall
      exact bodyOf_of_call hcall
  · simp only [guarded, orderOf]
    rcases log_next (s := s) (x.1, x.2.action loops (s.store.regs x.1)) with
      hlog | ⟨f, hf, _⟩ | ⟨hwaits, hmtx, hlog⟩
    · rw [hlog]
      exact hG.serial
    · exact absurd hf (hwork f)
    · -- the mutex is free, so the store is that of the log
      have hserial := hG.serial
      have hagrees := hI.agrees
      rw [hI.word.mp hmtx] at hagrees
      have hstore : replay (startStore n team) s.log = s.store := hagrees
      rw [hlog, List.map_append, List.map_singleton, Machine.run_concat, replay_concat, hstore]
      rw [hstore] at hserial
      exact hserial.next (hG.asks x.1 hwaits)

/-- **Dynamic scheduling under `eu_mutex`.**  However the accesses of the threads interleave, whenever nobody
holds the mutex the team and what each thread knows are those of the model in which each call is one step,
with the calls in the order in which they got the mutex; while a thread holds it, they are so once it has made
the rest of its accesses. -/
theorem dispatch_guarded (n : Nat) (loops : List Loop) (team : Team) (xs : List (Fin n × Move)) :
    let s := (guarded n loops team).run xs
    let d := (Sys.machine n loops team).run (orderOf s)
    ((∀ h, (s.hart h).holds = false) → Sim d s.store) ∧
    (∀ h, (s.hart h).holds = true →
      Sim d (s.store.set h (exec (s.hart h).todo (s.store.regs h) s.store.data))) := by
  intro s d
  have hG : Guarded loops team s :=
    Machine.invariant_of_next (P := fun s => Guarded loops team s) (Guarded.start n loops team)
      (fun _ x hG => hG.next x) xs
  obtain ⟨o, hI⟩ := hG.mutex
  have hserial := hG.serial
  have hagrees := hI.agrees
  constructor
  · intro hnobody
    have hnone : o = none := by
      rcases o with _ | h
      · rfl
      · have hh := (hI.holder h).mpr rfl
        rw [hnobody h] at hh
        cases hh
    rw [hnone] at hagrees
    rw [show replay (startStore n team) s.log = s.store from hagrees] at hserial
    exact hserial
  · intro h hh
    rw [(hI.holder h).mp hh] at hagrees
    rw [show replay (startStore n team) s.log = _ from hagrees] at hserial
    exact hserial

end Omp

end CachePool
