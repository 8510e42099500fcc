import CachePool.Omp.EventUnit

/-!
# Each task once, by each core of its team

* `Phase`, `WorkerOk`, `MainOk` — where the workers can be for each place of core 0, and what each place of a
  worker says about the task slot and about its own runs.
* `Inv` — the counters of waiting and of finished workers count what their names say, and what has been run
  so far is one run for each core of each team.
* `inv_run` — it holds in every run in which no `wfi` returns for an old wake-up, in a cluster of at most 31
  cores.
-/

set_option autoImplicit false

namespace CachePool

namespace Omp

/-- The worker counts in `workers_wfi`. -/
def Worker.inWfi (w : Worker) : Nat :=
  if w.pc = .wfi ∨ w.pc = .clr ∨ w.pc = .held ∨ w.pc = .subWfi then 1 else 0

/-- The worker is through with the round, or has not been woken for one. -/
def Worker.Idle (w : Worker) : Prop := w.woken = false ∧ (w.pc = .addWfi ∨ w.pc = .wfi)

instance (w : Worker) : Decidable w.Idle := by
  unfold Worker.Idle
  infer_instance

def Worker.idle (w : Worker) : Nat := if w.Idle then 1 else 0

theorem Worker.inWfi_le (w : Worker) : w.inWfi ≤ 1 := by
  unfold inWfi
  split <;> omega

theorem Worker.idle_le (w : Worker) : w.idle ≤ 1 := by
  unfold idle
  split <;> omega

theorem Worker.idle_eq_one {w : Worker} (h : w.idle = 1) : w.Idle := by
  by_contra hn
  simp [idle, hn] at h

/-- The worker is in its loop, outside `worker_wfi`. -/
def WorkerPc.working : WorkerPc → Bool
  | .addWfi | .wfi | .clr | .held | .subWfi => false
  | _ => true

theorem Worker.inWfi_of_working {w : Worker} (h : w.pc.working = true) : w.inWfi = 0 := by
  unfold inWfi
  cases hpc : w.pc <;> simp [hpc, WorkerPc.working] at h ⊢

theorem Worker.idle_of_working {w : Worker} (h : w.pc.working = true) : w.idle = 0 := by
  apply if_neg
  rintro ⟨_, hpc | hpc⟩ <;> simp [hpc, WorkerPc.working] at h

/-- What core 0 has the workers do: nothing yet; wait for the task; run it; nothing any more. -/
inductive Phase where
  | resting | asleep | window | joined
  deriving DecidableEq

def Main.phase (m : Main) : Phase :=
  match m.pc with
  | .pushLoad | .pushPoll => .resting
  | .setFn | .setData | .setArgc | .setNthreads | .runLoad | .resetFini | .wakeLoad | .wakePoll | .wakeSet =>
    .asleep
  | .check | .loadFn | .loadData | .loadArgc | .call | .running => if 1 < m.scratch then .window else .asleep
  | .loadInLoop | .pollFini => .window
  | .resetNthreads => .joined

/-- The slot holds the task. -/
structure Eu.Holds (eu : Eu) (t : Task) : Prop where
  fn : eu.fn = t.fn
  data : eu.data = t.data
  argc : eu.argc = t.argc
  nthreads : eu.nthreads = t.nthreads

namespace EventUnit

variable {n : Nat}

section

variable (tasks : List Task) (s : EventUnit n)

/-- Core `c` has started the task of this round. -/
def Ran (c : Nat) : Prop := ∃ e ∈ s.started, e.key = (c, s.round)

/-- Core `c` has finished the task of this round. -/
def RanToEnd (c : Nat) : Prop := ∃ e ∈ s.finished, e.key = (c, s.round)

/-- Where worker `i` can be in the window, and what it has loaded. -/
def WindowOk (i : Fin n) : Prop :=
  let w := s.workers i
  let inTeam := coreIdx i < s.eu.nthreads
  match w.pc with
  | .wfi => if w.woken then ¬ s.Ran (coreIdx i) else (inTeam → s.RanToEnd (coreIdx i))
  | .clr | .held | .subWfi | .checkExit | .checkNthreads => w.woken = false ∧ ¬ s.Ran (coreIdx i)
  | .copyNthreads | .loadFn => w.woken = false ∧ ¬ s.Ran (coreIdx i) ∧ inTeam
  | .loadData => w.woken = false ∧ ¬ s.Ran (coreIdx i) ∧ inTeam ∧ w.cur.fn = s.eu.fn
  | .loadArgc =>
    w.woken = false ∧ ¬ s.Ran (coreIdx i) ∧ inTeam ∧ w.cur.fn = s.eu.fn ∧ w.cur.data = s.eu.data
  | .call =>
    w.woken = false ∧ ¬ s.Ran (coreIdx i) ∧ inTeam ∧
      w.cur.fn = s.eu.fn ∧ w.cur.data = s.eu.data ∧ w.cur.argc = s.eu.argc
  | .running => w.woken = false ∧ w.cur ∈ s.started ∧ w.cur.key = (coreIdx i, s.round)
  | .addFini | .addWfi => w.woken = false ∧ (inTeam → s.RanToEnd (coreIdx i))
  | .returned => False

def WorkerOk (i : Fin n) : Prop :=
  match s.main.phase with
  | .resting => (s.workers i).Idle ∧ ¬ s.Ran (coreIdx i)
  | .asleep => (s.workers i).woken = false ∧ (s.workers i).pc = .wfi ∧ ¬ s.Ran (coreIdx i)
  | .window => s.WindowOk i
  | .joined => (s.workers i).Idle ∧ (coreIdx i < s.eu.nthreads → s.RanToEnd (coreIdx i))

/-- What core 0 knows at each place of the round of task `t`. -/
def MainAt (t : Task) : Prop :=
  match s.main.pc with
  | .pushLoad => True
  | .pushPoll => s.main.target = n ∧ ¬ s.Ran 0
  | .setFn => ¬ s.Ran 0
  | .setData => ¬ s.Ran 0 ∧ s.eu.fn = t.fn
  | .setArgc => ¬ s.Ran 0 ∧ s.eu.fn = t.fn ∧ s.eu.data = t.data
  | .setNthreads => ¬ s.Ran 0 ∧ s.eu.fn = t.fn ∧ s.eu.data = t.data ∧ s.eu.argc = t.argc
  | .runLoad => ¬ s.Ran 0 ∧ s.eu.Holds t
  | .resetFini => ¬ s.Ran 0 ∧ s.eu.Holds t ∧ s.main.scratch = t.nthreads
  | .wakeLoad => ¬ s.Ran 0 ∧ s.eu.Holds t ∧ s.main.scratch = t.nthreads ∧ 1 < t.nthreads ∧ s.eu.finiCount = 0
  | .wakePoll =>
    ¬ s.Ran 0 ∧ s.eu.Holds t ∧ s.main.scratch = t.nthreads ∧ 1 < t.nthreads ∧ s.eu.finiCount = 0 ∧
      s.main.target = n
  | .wakeSet => ¬ s.Ran 0 ∧ s.eu.Holds t ∧ s.main.scratch = t.nthreads ∧ 1 < t.nthreads ∧ s.eu.finiCount = 0
  | .check | .loadFn => ¬ s.Ran 0 ∧ s.eu.Holds t ∧ s.main.scratch = t.nthreads
  | .loadData => ¬ s.Ran 0 ∧ s.eu.Holds t ∧ s.main.scratch = t.nthreads ∧ s.main.cur.fn = t.fn
  | .loadArgc =>
    ¬ s.Ran 0 ∧ s.eu.Holds t ∧ s.main.scratch = t.nthreads ∧ s.main.cur.fn = t.fn ∧ s.main.cur.data = t.data
  | .call =>
    ¬ s.Ran 0 ∧ s.eu.Holds t ∧ s.main.scratch = t.nthreads ∧
      s.main.cur.fn = t.fn ∧ s.main.cur.data = t.data ∧ s.main.cur.argc = t.argc
  | .running =>
    s.eu.Holds t ∧ s.main.scratch = t.nthreads ∧ s.main.cur ∈ s.started ∧ s.main.cur.key = (0, s.round)
  | .loadInLoop => s.eu.Holds t ∧ s.RanToEnd 0
  | .pollFini => s.eu.Holds t ∧ s.main.target = n ∧ s.RanToEnd 0
  | .resetNthreads => s.eu.Holds t ∧ s.RanToEnd 0

/-- Between two tasks core 0 has not run the next one; otherwise there is one it is at. -/
def MainOk : Prop :=
  (s.main.pc = .pushLoad ∧ ¬ s.Ran 0) ∨
    (s.main.pc ≠ .pushLoad ∧ ∃ t, tasks[s.round]? = some t ∧ s.MainAt t)

/-- **The joint invariant.** -/
structure Inv : Prop where
  exit : s.eu.exitFlag = 0
  in_loop : s.eu.workersInLoop = n
  wfi : s.eu.workersWfi = tally Worker.inWfi s.workers
  fini : s.main.phase = .window → s.eu.finiCount = tally Worker.idle s.workers
  bit : ∀ i, (s.workers i).woken = true → s.clint.getLsbD (coreIdx i) = true
  main : s.MainOk tasks
  workers : ∀ i, s.WorkerOk i
  runs : s.ForkJoin tasks
  round_le : ∀ e ∈ s.started, e.round ≤ s.round

end

variable {k : Nat} {tasks : List Task} {s s' : EventUnit n}

/-! ## The runs of the tasks -/

theorem ForkJoin.same (h : s.ForkJoin tasks) (hs : s'.started = s.started) (hf : s'.finished = s.finished)
    (hr : s'.round = s.round) : s'.ForkJoin tasks := by
  refine ⟨?_, ?_, ?_, ?_⟩
  · rw [hs]
    exact h.at_most_once
  · rw [hs]
    exact h.own_task
  · rw [hs, hf]
    exact h.finished_started
  · rw [hf, hr]
    exact h.joined

/-- A core of the team that has not started the task of the round starts it. -/
theorem ForkJoin.start (h : s.ForkJoin tasks) {e : Exec} {c : Nat} (hkey : e.key = (c, s.round))
    (hnew : ¬ s.Ran c) {t : Task} (ht : tasks[s.round]? = some t) (hc : c < t.nthreads)
    (hargs : e.fn = t.fn ∧ e.data = t.data ∧ e.argc = t.argc) (hs : s'.started = s.started ++ [e])
    (hf : s'.finished = s.finished) (hr : s'.round = s.round) : s'.ForkJoin tasks := by
  obtain ⟨hcore, hround⟩ := Prod.mk.inj hkey
  refine ⟨?_, ?_, ?_, ?_⟩
  · rw [hs, List.map_append, List.nodup_append]
    refine ⟨h.at_most_once, by simp, ?_⟩
    intro k hk k' hk' heq
    obtain ⟨e', he', rfl⟩ := List.mem_map.mp hk
    have hk'' : k' = e.key := by simpa using hk'
    exact hnew ⟨e', he', by rw [heq, hk'', hkey]⟩
  · intro e' he'
    rw [hs, List.mem_append, List.mem_singleton] at he'
    rcases he' with hold | rfl
    · exact h.own_task e' hold
    · rw [hround, hcore]
      exact ⟨t, ht, hc, hargs⟩
  · intro e' he'
    rw [hf] at he'
    rw [hs]
    exact List.mem_append_left _ (h.finished_started e' he')
  · rw [hf, hr]
    exact h.joined

theorem ForkJoin.finish (h : s.ForkJoin tasks) {e : Exec} (he : e ∈ s.started)
    (hs : s'.started = s.started) (hf : s'.finished = s.finished ++ [e]) (hr : s'.round = s.round) :
    s'.ForkJoin tasks := by
  refine ⟨?_, ?_, ?_, ?_⟩
  · rw [hs]
    exact h.at_most_once
  · rw [hs]
    exact h.own_task
  · intro e' he'
    rw [hf, List.mem_append, List.mem_singleton] at he'
    rw [hs]
    rcases he' with hold | rfl
    · exact h.finished_started e' hold
    · exact he
  · intro r hlt t ht c hc
    rw [hr] at hlt
    obtain ⟨e', he', hkey⟩ := h.joined r hlt t ht c hc
    exact ⟨e', by rw [hf]; exact List.mem_append_left _ he', hkey⟩

/-- Every core of the team is through: the round is over. -/
theorem ForkJoin.endRound (h : s.ForkJoin tasks) {t : Task} (ht : tasks[s.round]? = some t)
    (hall : ∀ c < t.nthreads, s.RanToEnd c) (hs : s'.started = s.started) (hf : s'.finished = s.finished)
    (hr : s'.round = s.round + 1) : s'.ForkJoin tasks := by
  refine ⟨?_, ?_, ?_, ?_⟩
  · rw [hs]
    exact h.at_most_once
  · rw [hs]
    exact h.own_task
  · rw [hs, hf]
    exact h.finished_started
  · intro r hlt t' ht' c hc
    rw [hf]
    rw [hr] at hlt
    by_cases hold : r < s.round
    · exact h.joined r hold t' ht' c hc
    · have hnow : r = s.round := by omega
      subst hnow
      rw [ht] at ht'
      cases ht'
      exact hall c hc

/-! ## A step of a worker -/

/-- What a worker's step leaves of another worker's facts. -/
theorem WorkerOk.frame {i : Fin n} (h : s.WorkerOk i) (hmain : s'.main.phase = s.main.phase)
    (hw : s'.workers i = s.workers i) (hfn : s'.eu.fn = s.eu.fn) (hdata : s'.eu.data = s.eu.data)
    (hargc : s'.eu.argc = s.eu.argc) (hnthreads : s'.eu.nthreads = s.eu.nthreads)
    (hround : s'.round = s.round) (hstarted : s.started ⊆ s'.started)
    (hran : ¬ s.Ran (coreIdx i) → ¬ s'.Ran (coreIdx i)) (hfinished : s.finished ⊆ s'.finished) :
    s'.WorkerOk i := by
  have hend : s.RanToEnd (coreIdx i) → s'.RanToEnd (coreIdx i) := by
    rintro ⟨e, he, hkey⟩
    exact ⟨e, hfinished he, by rw [hkey, hround]⟩
  unfold WorkerOk at h ⊢
  rw [hmain]
  cases hphase : s.main.phase with
  | resting =>
    simp only [hphase] at h ⊢
    rw [hw]
    exact ⟨h.1, hran h.2⟩
  | asleep =>
    simp only [hphase] at h ⊢
    rw [hw]
    exact ⟨h.1, h.2.1, hran h.2.2⟩
  | joined =>
    simp only [hphase] at h ⊢
    rw [hw, hnthreads]
    exact ⟨h.1, fun hc => hend (h.2 hc)⟩
  | window =>
    simp only [hphase, WindowOk] at h ⊢
    rw [hw, hfn, hdata, hargc, hnthreads, hround]
    cases hpc : (s.workers i).pc
    case wfi =>
      simp only [hpc] at h ⊢
      split at h
      · rename_i hwoken
        rw [if_pos hwoken]
        exact hran h
      · rename_i hwoken
        rw [if_neg hwoken]
        exact fun hc => hend (h hc)
    case clr | held | subWfi | checkExit | checkNthreads =>
      simp only [hpc] at h ⊢
      exact ⟨h.1, hran h.2⟩
    case copyNthreads | loadFn | loadData | loadArgc | call =>
      simp only [hpc] at h ⊢
      exact ⟨h.1, hran h.2.1, h.2.2⟩
    case running =>
      simp only [hpc] at h ⊢
      exact ⟨h.1, hstarted h.2.1, h.2.2⟩
    case addFini | addWfi =>
      simp only [hpc] at h ⊢
      exact ⟨h.1, fun hc => hend (h.2 hc)⟩
    case returned => simp only [hpc] at h

theorem coreIdx_ne {i j : Fin n} (h : j ≠ i) : coreIdx j ≠ coreIdx i := by
  unfold coreIdx
  omega

/-- What a worker's step leaves of what core 0 knows. -/
theorem MainOk.frame (h : s.MainOk tasks) {wfi fini : Nat} {ws : Fin n → Worker} {st fi : List Exec}
    (hphase : s.main.phase ≠ .asleep) (hstarted : s.started ⊆ st) (hfinished : s.finished ⊆ fi)
    (hothers : ∀ e ∈ st, e.core = 0 → e ∈ s.started) :
    ({ s with
        eu := { s.eu with workersWfi := wfi, finiCount := fini }
        workers := ws, started := st, finished := fi } : EventUnit n).MainOk tasks := by
  have hran : ¬ s.Ran 0 → ¬ ∃ e ∈ st, e.key = (0, s.round) := by
    rintro hn ⟨e, he, hkey⟩
    exact hn ⟨e, hothers e he (Prod.mk.inj hkey).1, hkey⟩
  have hend : s.RanToEnd 0 → ∃ e ∈ fi, e.key = (0, s.round) := by
    rintro ⟨e, he, hkey⟩
    exact ⟨e, hfinished he, hkey⟩
  rcases h with ⟨hpc, hn⟩ | ⟨hpc, t, ht, h⟩
  · exact Or.inl ⟨hpc, hran hn⟩
  · refine Or.inr ⟨hpc, t, ht, ?_⟩
    unfold MainAt at h ⊢
    cases hat : s.main.pc
    case pushLoad => trivial
    case pushPoll =>
      simp only [hat] at h ⊢
      exact ⟨h.1, hran h.2⟩
    case setFn =>
      simp only [hat] at h ⊢
      exact hran h
    case wakeLoad | wakePoll | wakeSet => exact absurd (by simp only [Main.phase, hat]) hphase
    case running =>
      simp only [hat] at h ⊢
      exact ⟨⟨h.1.fn, h.1.data, h.1.argc, h.1.nthreads⟩, h.2.1, hstarted h.2.2.1, h.2.2.2⟩
    case loadInLoop | resetNthreads =>
      simp only [hat] at h ⊢
      exact ⟨⟨h.1.fn, h.1.data, h.1.argc, h.1.nthreads⟩, hend h.2⟩
    case pollFini =>
      simp only [hat] at h ⊢
      exact ⟨⟨h.1.fn, h.1.data, h.1.argc, h.1.nthreads⟩, h.2.1, hend h.2.2⟩
    case runLoad =>
      simp only [hat] at h ⊢
      exact ⟨hran h.1, h.2.fn, h.2.data, h.2.argc, h.2.nthreads⟩
    case resetFini | check | loadFn | loadData | loadArgc | call =>
      simp only [hat] at h ⊢
      exact ⟨hran h.1, ⟨h.2.1.fn, h.2.1.data, h.2.1.argc, h.2.1.nthreads⟩, h.2.2⟩
    case setData | setArgc | setNthreads =>
      simp only [hat] at h ⊢
      exact ⟨hran h.1, h.2⟩

/-- A step of worker `i`: its own place and the counters move on, and it may start or finish a task. -/
theorem Inv.worker_moves (I : s.Inv tasks) (i : Fin n) (w : Worker) (wfi fini : Nat) (st fi : List Exec)
    (hphase : s.main.phase ≠ .asleep)
    (hwfi : wfi + (s.workers i).inWfi = s.eu.workersWfi + w.inWfi)
    (hfini : fini + (s.workers i).idle = s.eu.finiCount + w.idle)
    (hbit : w.woken = true → (s.workers i).woken = true)
    (hstarted : s.started ⊆ st) (hfinished : s.finished ⊆ fi)
    (hothers : ∀ e ∈ st, e.core ≠ coreIdx i → e ∈ s.started) (hround : ∀ e ∈ st, e.round ≤ s.round)
    (hs' : s' =
      { s with
        eu := { s.eu with workersWfi := wfi, finiCount := fini }
        workers := Function.update s.workers i w, started := st, finished := fi })
    (hok : s'.WorkerOk i) (hruns : s'.ForkJoin tasks) : s'.Inv tasks := by
  refine ⟨?_, ?_, ?_, ?_, ?_, ?_, ?_, hruns, ?_⟩
  · rw [hs']
    exact I.exit
  · rw [hs']
    exact I.in_loop
  · have hold := I.wfi
    have hupd := tally_update Worker.inWfi s.workers i w
    rw [hs']
    dsimp only
    omega
  · intro hwin
    rw [hs'] at hwin ⊢
    have hold := I.fini hwin
    have hupd := tally_update Worker.idle s.workers i w
    dsimp only
    omega
  · intro j hj
    rw [hs'] at hj ⊢
    dsimp only at hj ⊢
    by_cases hji : j = i
    · subst hji
      rw [Function.update_self] at hj
      exact I.bit j (hbit hj)
    · rw [Function.update_of_ne hji] at hj
      exact I.bit j hj
  · rw [hs']
    exact I.main.frame hphase hstarted hfinished
      (fun e he hcore => hothers e he (by rw [hcore]; exact Nat.succ_ne_zero _ |>.symm))
  · intro j
    by_cases hji : j = i
    · rw [hji]
      exact hok
    · have hother : s'.workers j = s.workers j := by
        rw [hs']
        exact Function.update_of_ne hji _ _
      apply (I.workers j).frame (by rw [hs']) hother (by rw [hs']) (by rw [hs']) (by rw [hs'])
        (by rw [hs']) (by rw [hs']) (by rw [hs']; exact hstarted) _ (by rw [hs']; exact hfinished)
      rintro hn ⟨e, he, hkey⟩
      rw [hs'] at he hkey
      refine hn ⟨e, hothers e he ?_, hkey⟩
      rw [(Prod.mk.inj hkey).1]
      exact coreIdx_ne hji
  · rw [hs']
    exact hround

/-- While the workers run a task the slot holds it. -/
theorem MainOk.task_of_window (h : s.MainOk tasks) (hwin : s.main.phase = .window) :
    ∃ t, tasks[s.round]? = some t ∧ s.eu.Holds t := by
  rcases h with ⟨hpc, _⟩ | ⟨_, t, ht, h⟩
  · simp [Main.phase, hpc] at hwin
  · refine ⟨t, ht, ?_⟩
    unfold MainAt at h
    cases hat : s.main.pc
    case check | loadFn | loadData | loadArgc | call =>
      simp only [hat] at h
      exact h.2.1
    case running | loadInLoop | pollFini =>
      simp only [hat] at h
      exact h.1
    all_goals simp [Main.phase, hat] at hwin

/-- A worker that has not been woken stays in its `wfi`. -/
theorem stepWorker_waits {i : Fin n} (hpc : (s.workers i).pc = .wfi) (hwoken : (s.workers i).woken = false)
    (h : s.NoStaleReturn (.worker i)) : s.stepWorker k i = s := by
  have hbit : ¬ s.clint.getLsbD (coreIdx i) = true := by
    intro hset
    rw [h hpc hset] at hwoken
    cases hwoken
  simp [stepWorker, hpc, hbit]

/-- A worker's step that neither starts nor finishes a task. -/
theorem Inv.worker_counts (I : s.Inv tasks) (i : Fin n) (w : Worker) (wfi fini : Nat)
    (hphase : s.main.phase ≠ .asleep) (hwfi : wfi + (s.workers i).inWfi = s.eu.workersWfi + w.inWfi)
    (hfini : fini + (s.workers i).idle = s.eu.finiCount + w.idle)
    (hwoken : w.woken = true → (s.workers i).woken = true)
    (hs' : s' =
      { s with
        eu := { s.eu with workersWfi := wfi, finiCount := fini }
        workers := Function.update s.workers i w })
    (hok : s'.WorkerOk i) : s'.Inv tasks := by
  apply I.worker_moves i w wfi fini s.started s.finished hphase hwfi hfini hwoken
    (List.Subset.refl _) (List.Subset.refl _) (fun e he _ => he) I.round_le hs' hok
  rw [hs']
  exact I.runs.same rfl rfl rfl

/-- A worker that is through enters its `wfi`. -/
theorem Inv.worker_addWfi (I : s.Inv tasks) {i : Fin n} (hpc : (s.workers i).pc = .addWfi)
    (hwoken : (s.workers i).woken = false) : (s.stepWorker k i).Inv tasks := by
  have hphase : s.main.phase ≠ .asleep := by
    intro hasleep
    have hat := I.workers i
    simp [WorkerOk, hasleep, hpc] at hat
  apply I.worker_counts i { s.workers i with pc := .wfi } (s.eu.workersWfi + 1) s.eu.finiCount hphase
  · simp [Worker.inWfi, hpc]
  · simp [Worker.idle, Worker.Idle, hpc]
  · exact id
  · simp [stepWorker, hpc, setWorker]
  · have hat := I.workers i
    unfold WorkerOk at hat ⊢
    have hsame : (s.stepWorker k i).main = s.main := by simp [stepWorker, hpc, setWorker]
    have hself : (s.stepWorker k i).workers i = { s.workers i with pc := .wfi } := by
      simp [stepWorker, hpc, setWorker]
    rw [hsame]
    cases hp : s.main.phase with
    | asleep => exact absurd hp hphase
    | resting =>
      simp only [hp] at hat ⊢
      rw [hself]
      refine ⟨⟨hwoken, Or.inr rfl⟩, ?_⟩
      simpa [stepWorker, hpc, setWorker, Ran] using hat.2
    | joined =>
      simp only [hp] at hat ⊢
      rw [hself]
      refine ⟨⟨hwoken, Or.inr rfl⟩, ?_⟩
      simpa [stepWorker, hpc, setWorker, RanToEnd] using hat.2
    | window =>
      simp only [hp, WindowOk] at hat ⊢
      rw [hself]
      simp only [hpc] at hat
      simp only [hwoken]
      simpa [stepWorker, hpc, setWorker, RanToEnd] using hat.2

/-- In the window a worker goes on without counting, starting or finishing. -/
theorem Inv.worker_goes (I : s.Inv tasks) (hwin : s.main.phase = .window) {i : Fin n} {w : Worker}
    (hwfi : w.inWfi = (s.workers i).inWfi) (hidle : w.idle = (s.workers i).idle)
    (hwoken : w.woken = true → (s.workers i).woken = true) (hok : (s.setWorker i w).WindowOk i) :
    (s.setWorker i w).Inv tasks := by
  apply I.worker_counts i w s.eu.workersWfi s.eu.finiCount
  · rw [hwin]
    decide
  · omega
  · omega
  · exact hwoken
  · rfl
  · unfold WorkerOk
    have hsame : (s.setWorker i w).main.phase = .window := hwin
    simp only [hsame]
    exact hok

/-- A worker goes on between its loop's head and the task. -/
theorem Inv.worker_works (I : s.Inv tasks) (hwin : s.main.phase = .window) {i : Fin n} {w : Worker}
    (hold : (s.workers i).pc.working = true) (hnew : w.pc.working = true)
    (hwoken : w.woken = (s.workers i).woken) (hok : (s.setWorker i w).WindowOk i) :
    (s.setWorker i w).Inv tasks := by
  apply I.worker_goes hwin
  · rw [Worker.inWfi_of_working hold, Worker.inWfi_of_working hnew]
  · rw [Worker.idle_of_working hold, Worker.idle_of_working hnew]
  · exact fun h => hwoken ▸ h
  · exact hok

/-- A worker of the team starts the task. -/
theorem Inv.worker_call (I : s.Inv tasks) (hwin : s.main.phase = .window) {i : Fin n}
    (hpc : (s.workers i).pc = .call) : (s.stepWorker k i).Inv tasks := by
  obtain ⟨t, ht, hslot⟩ := I.main.task_of_window hwin
  have hat := I.workers i
  simp only [WorkerOk, hwin, WindowOk, hpc] at hat
  obtain ⟨hwoken, hnew, hteam, hfn, hdata, hargc⟩ := hat
  let e : Exec := { (s.workers i).cur with core := coreIdx i, round := s.round }
  have hstep : s.stepWorker k i =
      { s with
        started := s.started ++ [e]
        workers := Function.update s.workers i { s.workers i with pc := .running, cur := e } } := by
    simp [stepWorker, hpc, setWorker, e]
  rw [hstep]
  apply I.worker_moves i { s.workers i with pc := .running, cur := e } s.eu.workersWfi s.eu.finiCount
    (s.started ++ [e]) s.finished
  · rw [hwin]
    decide
  · simp [Worker.inWfi, hpc]
  · simp [Worker.idle, Worker.Idle, hpc]
  · exact id
  · exact List.subset_append_left _ _
  · exact List.Subset.refl _
  · intro e' he' hcore
    rw [List.mem_append, List.mem_singleton] at he'
    rcases he' with hold | rfl
    · exact hold
    · exact absurd rfl hcore
  · intro e' he'
    rw [List.mem_append, List.mem_singleton] at he'
    rcases he' with hold | rfl
    · exact I.round_le e' hold
    · exact Nat.le_refl _
  · rfl
  · simp only [WorkerOk, hwin, WindowOk, Function.update_self]
    exact ⟨hwoken, List.mem_append_right _ (List.mem_singleton.mpr rfl), rfl⟩
  · refine I.runs.start (e := e) (c := coreIdx i) rfl hnew ht ?_ ⟨?_, ?_, ?_⟩ rfl rfl rfl
    · rw [← hslot.nthreads]
      exact hteam
    · rw [← hslot.fn]
      exact hfn
    · rw [← hslot.data]
      exact hdata
    · rw [← hslot.argc]
      exact hargc

/-- A worker finishes the task. -/
theorem Inv.worker_running (I : s.Inv tasks) (hwin : s.main.phase = .window) {i : Fin n}
    (hpc : (s.workers i).pc = .running) : (s.stepWorker k i).Inv tasks := by
  have hat := I.workers i
  simp only [WorkerOk, hwin, WindowOk, hpc] at hat
  obtain ⟨hwoken, hmem, hkey⟩ := hat
  have hstep : s.stepWorker k i =
      { s with
        finished := s.finished ++ [(s.workers i).cur]
        workers := Function.update s.workers i { s.workers i with pc := .addFini } } := by
    simp [stepWorker, hpc, setWorker]
  rw [hstep]
  apply I.worker_moves i { s.workers i with pc := .addFini } s.eu.workersWfi s.eu.finiCount s.started
    (s.finished ++ [(s.workers i).cur])
  · rw [hwin]
    decide
  · simp [Worker.inWfi, hpc]
  · simp [Worker.idle, Worker.Idle, hpc]
  · exact id
  · exact List.Subset.refl _
  · exact List.subset_append_left _ _
  · exact fun e he _ => he
  · exact I.round_le
  · rfl
  · simp only [WorkerOk, hwin, WindowOk, Function.update_self]
    exact ⟨hwoken, fun _ => ⟨_, List.mem_append_right _ (List.mem_singleton.mpr rfl), hkey⟩⟩
  · exact I.runs.finish hmem rfl rfl rfl

/-- A worker counts itself as finished. -/
theorem Inv.worker_addFini (I : s.Inv tasks) (hwin : s.main.phase = .window) {i : Fin n}
    (hpc : (s.workers i).pc = .addFini) : (s.stepWorker k i).Inv tasks := by
  have hat := I.workers i
  simp only [WorkerOk, hwin, WindowOk, hpc] at hat
  have hstep : s.stepWorker k i =
      { s with
        eu := { s.eu with finiCount := s.eu.finiCount + 1 }
        workers := Function.update s.workers i { s.workers i with pc := .addWfi } } := by
    simp [stepWorker, hpc, setWorker]
  rw [hstep]
  apply I.worker_counts i { s.workers i with pc := .addWfi } s.eu.workersWfi (s.eu.finiCount + 1)
  · rw [hwin]
    decide
  · simp [Worker.inWfi, hpc]
  · simp [Worker.idle, Worker.Idle, hpc, hat.1]
  · exact id
  · rfl
  · simp only [WorkerOk, hwin, WindowOk, Function.update_self]
    exact hat

/-- A worker counts itself out of its `wfi`. -/
theorem Inv.worker_subWfi (I : s.Inv tasks) (hwin : s.main.phase = .window) {i : Fin n}
    (hpc : (s.workers i).pc = .subWfi) : (s.stepWorker k i).Inv tasks := by
  have hat := I.workers i
  simp only [WorkerOk, hwin, WindowOk, hpc] at hat
  have hcounted : (s.workers i).inWfi = 1 := by simp [Worker.inWfi, hpc]
  have hpos : 1 ≤ s.eu.workersWfi := by
    rw [I.wfi, ← hcounted]
    exact le_tally Worker.inWfi s.workers i
  have hstep : s.stepWorker k i =
      { s with
        eu := { s.eu with workersWfi := s.eu.workersWfi - 1 }
        workers := Function.update s.workers i { s.workers i with pc := .checkExit } } := by
    simp [stepWorker, hpc, setWorker]
  rw [hstep]
  have hleft : Worker.inWfi { s.workers i with pc := .checkExit } = 0 := by simp [Worker.inWfi]
  apply I.worker_counts i { s.workers i with pc := .checkExit } (s.eu.workersWfi - 1) s.eu.finiCount
  · rw [hwin]
    decide
  · omega
  · simp [Worker.idle, Worker.Idle, hpc]
  · exact id
  · rfl
  · simp only [WorkerOk, hwin, WindowOk, Function.update_self]
    exact hat

/-- The tile barrier lets the workers of a tile go on together. -/
theorem Inv.tileBarrier (I : s.Inv tasks) (hwin : s.main.phase = .window) {t : Nat} :
    (s.tileBarrier k t).Inv tasks := by
  by_cases hall : s.LocalBarrier k t
  · have hheld : ∀ i, tileIdx k (coreIdx i) = t → (s.workers i).pc = .held := hall.2
    have hstep : s.tileBarrier k t =
        { s with
          workers := fun i =>
            if tileIdx k (coreIdx i) = t then { s.workers i with pc := .subWfi } else s.workers i } := by
      simp only [EventUnit.tileBarrier, if_pos hall, snrtIntClusterClr_eq]
    rw [hstep]
    refine ⟨I.exit, I.in_loop, ?_, ?_, ?_, ?_, ?_, I.runs.same rfl rfl rfl, I.round_le⟩
    · rw [I.wfi]
      refine tally_congr fun i => ?_
      by_cases hi : tileIdx k (coreIdx i) = t
      · simp [Worker.inWfi, hi, hheld i hi]
      · simp [hi]
    · intro _
      rw [I.fini hwin]
      refine tally_congr fun i => ?_
      by_cases hi : tileIdx k (coreIdx i) = t
      · simp [Worker.idle, Worker.Idle, hi, hheld i hi]
      · simp [hi]
    · intro i hwoken
      by_cases hi : tileIdx k (coreIdx i) = t
      · exact I.bit i (by simpa [hi] using hwoken)
      · exact I.bit i (by simpa [hi] using hwoken)
    · exact I.main.frame (by rw [hwin]; decide) (List.Subset.refl _) (List.Subset.refl _) (fun e he _ => he)
    · intro i
      have hat := I.workers i
      by_cases hi : tileIdx k (coreIdx i) = t
      · simp only [WorkerOk, hwin, WindowOk, hheld i hi] at hat
        simp only [WorkerOk, hwin, WindowOk, hi, if_true]
        exact hat
      · refine hat.frame rfl ?_ rfl rfl rfl rfl rfl (List.Subset.refl _) id (List.Subset.refl _)
        simp [hi]
  · rw [EventUnit.tileBarrier, if_neg hall]
    exact I

/-- The steps of a worker in the window. -/
theorem Inv.worker_window (I : s.Inv tasks) (hwin : s.main.phase = .window) {i : Fin n}
    (h : s.NoStaleReturn (.worker i)) : (s.stepWorker k i).Inv tasks := by
  have hat := I.workers i
  simp only [WorkerOk, hwin, WindowOk] at hat
  cases hpc : (s.workers i).pc with
  | checkExit =>
    simp only [hpc] at hat
    simp only [stepWorker, hpc, I.exit, ne_eq, not_true_eq_false, if_false]
    refine I.worker_works hwin (by rw [hpc]; rfl) rfl rfl ?_
    simp only [WindowOk, setWorker, Function.update_self]
    exact hat
  | checkNthreads =>
    simp only [hpc] at hat
    simp only [stepWorker, hpc]
    by_cases hteam : coreIdx i < s.eu.nthreads
    · rw [if_pos hteam]
      refine I.worker_works hwin (by rw [hpc]; rfl) rfl rfl ?_
      simp only [WindowOk, setWorker, Function.update_self]
      exact ⟨hat.1, hat.2, hteam⟩
    · rw [if_neg hteam]
      refine I.worker_works hwin (by rw [hpc]; rfl) rfl rfl ?_
      simp only [WindowOk, setWorker, Function.update_self]
      exact ⟨hat.1, fun hc => absurd hc hteam⟩
  | copyNthreads =>
    simp only [hpc] at hat
    simp only [stepWorker, hpc]
    refine I.worker_works hwin (by rw [hpc]; rfl) rfl rfl ?_
    simp only [WindowOk, setWorker, Function.update_self]
    exact hat
  | loadFn =>
    simp only [hpc] at hat
    simp only [stepWorker, hpc]
    refine I.worker_works hwin (by rw [hpc]; rfl) rfl rfl ?_
    simp only [WindowOk, setWorker, Function.update_self]
    exact ⟨hat.1, hat.2.1, hat.2.2, trivial⟩
  | loadData =>
    simp only [hpc] at hat
    simp only [stepWorker, hpc]
    refine I.worker_works hwin (by rw [hpc]; rfl) rfl rfl ?_
    simp only [WindowOk, setWorker, Function.update_self]
    exact ⟨hat.1, hat.2.1, hat.2.2.1, hat.2.2.2, trivial⟩
  | loadArgc =>
    simp only [hpc] at hat
    simp only [stepWorker, hpc]
    refine I.worker_works hwin (by rw [hpc]; rfl) rfl rfl ?_
    simp only [WindowOk, setWorker, Function.update_self]
    exact ⟨hat.1, hat.2.1, hat.2.2.1, hat.2.2.2.1, hat.2.2.2.2, trivial⟩
  | call => exact I.worker_call hwin hpc
  | running => exact I.worker_running hwin hpc
  | addFini => exact I.worker_addFini hwin hpc
  | addWfi =>
    simp only [hpc] at hat
    exact I.worker_addWfi hpc hat.1
  | wfi =>
    simp only [hpc] at hat
    by_cases hwoken : (s.workers i).woken = true
    · rw [if_pos hwoken] at hat
      simp only [stepWorker, hpc, I.bit i hwoken, if_true]
      refine I.worker_goes hwin (by simp [Worker.inWfi, hpc])
        (by simp [Worker.idle, Worker.Idle, hpc, hwoken]) (fun _ => hwoken) ?_
      simp only [WindowOk, setWorker, Function.update_self]
      exact ⟨trivial, hat⟩
    · rw [stepWorker_waits hpc (by simpa using hwoken) h]
      exact I
  | clr =>
    simp only [hpc] at hat
    simp only [stepWorker, hpc]
    refine Inv.tileBarrier ?_ (by exact hwin)
    refine I.worker_goes hwin (by simp [Worker.inWfi, hpc]) (by simp [Worker.idle, Worker.Idle, hpc]) id ?_
    simp only [WindowOk, setWorker, Function.update_self]
    exact hat
  | held =>
    simp only [stepWorker, hpc]
    exact I
  | subWfi => exact I.worker_subWfi hwin hpc
  | returned => simp only [hpc] at hat

/-- **A worker's step.** -/
theorem Inv.worker_step (I : s.Inv tasks) {i : Fin n} (h : s.NoStaleReturn (.worker i)) :
    (s.stepWorker k i).Inv tasks := by
  have hat := I.workers i
  have hidle : (s.workers i).Idle → (s.stepWorker k i).Inv tasks := by
    rintro ⟨hwoken, hpc | hpc⟩
    · exact I.worker_addWfi hpc hwoken
    · rw [stepWorker_waits hpc hwoken h]
      exact I
  unfold WorkerOk at hat
  cases hphase : s.main.phase with
  | resting =>
    simp only [hphase] at hat
    exact hidle hat.1
  | asleep =>
    simp only [hphase] at hat
    exact hidle ⟨hat.1, Or.inr hat.2.1⟩
  | joined =>
    simp only [hphase] at hat
    exact hidle hat.1
  | window => exact I.worker_window hphase h

/-! ## A step of core 0 -/

/-- Past the start of the round there is a task. -/
theorem MainOk.task (h : s.MainOk tasks) (hpc : s.main.pc ≠ .pushLoad) :
    ∃ t, tasks[s.round]? = some t ∧ s.MainAt t := by
  rcases h with ⟨hat, _⟩ | ⟨_, hat⟩
  · exact absurd hat hpc
  · exact hat

/-- Core 0 moves on within a phase, writing nothing the workers read. -/
theorem Inv.main_goes (I : s.Inv tasks) {m : Main} (hphase : m.phase = s.main.phase)
    (hmain : ({ s with main := m } : EventUnit n).MainOk tasks) :
    ({ s with main := m } : EventUnit n).Inv tasks := by
  refine ⟨I.exit, I.in_loop, I.wfi, ?_, I.bit, hmain, ?_, I.runs.same rfl rfl rfl, I.round_le⟩
  · intro hwin
    exact I.fini (hphase.symm.trans hwin)
  · intro i
    have hat := I.workers i
    unfold WorkerOk at hat ⊢
    dsimp only
    rw [hphase]
    exact hat

/-- While the workers wait core 0 writes the slot. -/
theorem Inv.main_writes (I : s.Inv tasks) {eu : Eu} {m : Main} (hold : s.main.phase = .asleep)
    (hphase : m.phase = .asleep) (hexit : eu.exitFlag = s.eu.exitFlag)
    (hin : eu.workersInLoop = s.eu.workersInLoop) (hwfi : eu.workersWfi = s.eu.workersWfi)
    (hmain : ({ s with eu := eu, main := m } : EventUnit n).MainOk tasks) :
    ({ s with eu := eu, main := m } : EventUnit n).Inv tasks := by
  refine ⟨hexit.trans I.exit, hin.trans I.in_loop, hwfi.trans I.wfi, ?_, I.bit, hmain, ?_,
    I.runs.same rfl rfl rfl, I.round_le⟩
  · intro hwin
    dsimp only at hwin
    rw [hphase] at hwin
    cases hwin
  · intro i
    have hat := I.workers i
    unfold WorkerOk at hat ⊢
    dsimp only
    simp only [hold] at hat
    simp only [hphase]
    exact hat

/-- All workers wait once `workers_wfi` has reached their number. -/
theorem Inv.main_pushPoll (I : s.Inv tasks) (hpc : s.main.pc = .pushPoll) : (s.stepMain tasks).Inv tasks := by
  obtain ⟨t, ht, hat⟩ := I.main.task (by rw [hpc]; decide)
  simp only [MainAt, hpc] at hat
  by_cases hpoll : s.eu.workersWfi = s.main.target
  · have hstep : s.stepMain tasks = { s with main := { s.main with pc := .setFn } } := by
      simp [stepMain, hpc, hpoll, goto]
    have hall : ∀ i, (s.workers i).inWfi = 1 := by
      apply eq_one_of_tally_eq Worker.inWfi_le
      rw [← I.wfi, hpoll, hat.1, Fintype.card_fin]
    rw [hstep]
    refine ⟨I.exit, I.in_loop, I.wfi, (by intro h; cases h), I.bit, ?_, ?_, I.runs.same rfl rfl rfl,
      I.round_le⟩
    · exact Or.inr ⟨by simp, t, ht, hat.2⟩
    · intro i
      have hworker := I.workers i
      have hin := hall i
      simp only [WorkerOk, Main.phase, hpc] at hworker ⊢
      obtain ⟨⟨hwoken, haddWfi | hwfi⟩, hnew⟩ := hworker
      · simp [Worker.inWfi, haddWfi] at hin
      · exact ⟨hwoken, hwfi, hnew⟩
  · have hstep : s.stepMain tasks = s := by simp [stepMain, hpc, hpoll]
    rw [hstep]
    exact I

/-- The mask has the bit of every worker. -/
theorem getLsbD_wakeMask (hn : n ≤ 30) (i : Fin n) : (wakeMask (n + 1)).getLsbD (coreIdx i) = true := by
  have hmask : ∀ k < 31, ∀ j < k, (wakeMask (k + 1)).getLsbD (j + 1) = true := by decide
  exact hmask n (by omega) i i.isLt

/-- Core 0 sets the workers' bits: all of them are woken, and none has started. -/
theorem Inv.main_wakeSet (I : s.Inv tasks) (hn : n ≤ 30) (hpc : s.main.pc = .wakeSet) :
    (s.stepMain tasks).Inv tasks := by
  obtain ⟨t, ht, hat⟩ := I.main.task (by rw [hpc]; decide)
  simp only [MainAt, hpc] at hat
  obtain ⟨hnew, hslot, hscratch, hmany, hfini⟩ := hat
  have hasleep : ∀ i, (s.workers i).pc = .wfi ∧ ¬ s.Ran (coreIdx i) := by
    intro i
    have hworker := I.workers i
    simp only [WorkerOk, Main.phase, hpc] at hworker
    exact hworker.2
  have hstep : s.stepMain tasks =
      { s with
        clint := s.clint ||| wakeMask (n + 1)
        main := { s.main with pc := .check }
        workers := fun i => { s.workers i with woken := true } } := by
    have hworkers : (s.wakeWorkers).workers = fun i => { s.workers i with woken := true } := by
      funext i
      simp [wakeWorkers, getLsbD_wakeMask hn]
    simp only [stepMain, hpc, goto, hworkers]
    rfl
  rw [hstep]
  refine ⟨I.exit, I.in_loop, ?_, ?_, ?_, Or.inr ⟨by simp, t, ht, hnew, hslot, hscratch⟩, ?_,
    I.runs.same rfl rfl rfl, I.round_le⟩
  · rw [I.wfi]
    rfl
  · intro _
    dsimp only
    rw [hfini, eq_comm, tally_eq_zero_iff]
    intro i
    simp [Worker.idle, Worker.Idle]
  · intro i _
    dsimp only
    rw [BitVec.getLsbD_or, getLsbD_wakeMask hn, Bool.or_true]
  · intro i
    have hphase : ({ s.main with pc := .check } : Main).phase = .window := by
      simp only [Main.phase]
      rw [if_pos (by omega)]
    simp only [WorkerOk, hphase, WindowOk, (hasleep i).1, if_true]
    exact (hasleep i).2

/-- Core 0 starts its own part. -/
theorem Inv.main_call (I : s.Inv tasks) (hpos : ∀ t ∈ tasks, 1 ≤ t.nthreads) (hpc : s.main.pc = .call) :
    (s.stepMain tasks).Inv tasks := by
  obtain ⟨t, ht, hat⟩ := I.main.task (by rw [hpc]; decide)
  simp only [MainAt, hpc] at hat
  obtain ⟨hnew, hslot, hscratch, hargs⟩ := hat
  let e : Exec := { s.main.cur with core := 0, round := s.round }
  have hstep : s.stepMain tasks =
      { s with started := s.started ++ [e], main := { s.main with pc := .running, cur := e } } := by
    simp [stepMain, hpc, e]
  have hphase : ({ s.main with pc := .running, cur := e } : Main).phase = s.main.phase := by
    simp [Main.phase, hpc]
  rw [hstep]
  refine ⟨I.exit, I.in_loop, I.wfi, ?_, I.bit, ?_, ?_, ?_, ?_⟩
  · intro hwin
    exact I.fini (hphase.symm.trans hwin)
  · exact Or.inr ⟨by simp, t, ht, hslot, hscratch, List.mem_append_right _ (List.mem_singleton.mpr rfl), rfl⟩
  · intro i
    refine (I.workers i).frame hphase rfl rfl rfl rfl rfl rfl (List.subset_append_left _ _) ?_
      (List.Subset.refl _)
    rintro hn ⟨e', he', hkey⟩
    rcases List.mem_append.mp he' with hold | hlast
    · exact hn ⟨e', hold, hkey⟩
    · rw [List.mem_singleton.mp hlast] at hkey
      exact absurd (Prod.mk.inj hkey).1 (Nat.succ_ne_zero _).symm
  · exact I.runs.start (e := e) rfl hnew ht (hpos t (List.mem_of_getElem? ht)) hargs rfl rfl rfl
  · intro e' he'
    rcases List.mem_append.mp he' with hold | hlast
    · exact I.round_le e' hold
    · rw [List.mem_singleton.mp hlast]

/-- Core 0 finishes its own part, and the round of a team of one is over for everybody. -/
theorem Inv.main_running (I : s.Inv tasks) (hpc : s.main.pc = .running) : (s.stepMain tasks).Inv tasks := by
  obtain ⟨t, ht, hat⟩ := I.main.task (by rw [hpc]; decide)
  simp only [MainAt, hpc] at hat
  obtain ⟨hslot, hscratch, hmem, hkey⟩ := hat
  have hdone : ∃ e ∈ s.finished ++ [s.main.cur], e.key = (0, s.round) :=
    ⟨s.main.cur, List.mem_append_right _ (List.mem_singleton.mpr rfl), hkey⟩
  by_cases hmany : 1 < s.main.scratch
  · have hstep : s.stepMain tasks =
        { s with finished := s.finished ++ [s.main.cur], main := { s.main with pc := .loadInLoop } } := by
      simp [stepMain, hpc, afterCall, goto, hmany]
    have hphase : ({ s.main with pc := .loadInLoop } : Main).phase = s.main.phase := by
      simp [Main.phase, hpc, hmany]
    rw [hstep]
    refine ⟨I.exit, I.in_loop, I.wfi, fun hwin => I.fini (hphase.symm.trans hwin), I.bit,
      Or.inr ⟨by simp, t, ht, hslot, hdone⟩, ?_, I.runs.finish hmem rfl rfl rfl, I.round_le⟩
    intro i
    exact (I.workers i).frame hphase rfl rfl rfl rfl rfl rfl (List.Subset.refl _) id
      (List.subset_append_left _ _)
  · have hstep : s.stepMain tasks =
        { s with finished := s.finished ++ [s.main.cur], main := { s.main with pc := .resetNthreads } } := by
      simp [stepMain, hpc, afterCall, goto, hmany]
    rw [hstep]
    refine ⟨I.exit, I.in_loop, I.wfi, (by intro h; cases h), I.bit,
      Or.inr ⟨by simp, t, ht, hslot, hdone⟩, ?_, I.runs.finish hmem rfl rfl rfl, I.round_le⟩
    intro i
    have hworker := I.workers i
    simp only [WorkerOk, Main.phase, hpc, hmany, if_false] at hworker ⊢
    refine ⟨⟨hworker.1, Or.inr hworker.2.1⟩, fun hteam => ?_⟩
    rw [hslot.nthreads] at hteam
    unfold coreIdx at hteam
    omega

/-- All workers are through once `fini_count` has reached their number. -/
theorem Inv.main_pollFini (I : s.Inv tasks) (hpc : s.main.pc = .pollFini) : (s.stepMain tasks).Inv tasks := by
  obtain ⟨t, ht, hat⟩ := I.main.task (by rw [hpc]; decide)
  simp only [MainAt, hpc] at hat
  obtain ⟨hslot, htarget, hdone⟩ := hat
  by_cases hpoll : s.eu.finiCount = s.main.target
  · have hwin : s.main.phase = .window := by simp [Main.phase, hpc]
    have hstep : s.stepMain tasks = { s with main := { s.main with pc := .resetNthreads } } := by
      simp [stepMain, hpc, hpoll, goto]
    have hall : ∀ i, (s.workers i).idle = 1 := by
      apply eq_one_of_tally_eq Worker.idle_le
      rw [← I.fini hwin, hpoll, htarget, Fintype.card_fin]
    rw [hstep]
    refine ⟨I.exit, I.in_loop, I.wfi, (by intro h; cases h), I.bit, Or.inr ⟨by simp, t, ht, hslot, hdone⟩, ?_,
      I.runs.same rfl rfl rfl, I.round_le⟩
    intro i
    have hworker := I.workers i
    have hidle := Worker.idle_eq_one (hall i)
    simp only [WorkerOk, hwin, WindowOk] at hworker
    refine ⟨hidle, ?_⟩
    obtain ⟨hwoken, haddWfi | hwfi⟩ := hidle
    · simp only [haddWfi] at hworker
      exact hworker.2
    · simp only [hwfi, hwoken] at hworker
      exact hworker
  · have hstep : s.stepMain tasks = s := by simp [stepMain, hpc, hpoll]
    rw [hstep]
    exact I

/-- `eu_run_empty` returns: every core of the team has finished. -/
theorem Inv.main_resetNthreads (I : s.Inv tasks) (hteam : ∀ t ∈ tasks, t.nthreads ≤ n + 1)
    (hpc : s.main.pc = .resetNthreads) : (s.stepMain tasks).Inv tasks := by
  obtain ⟨t, ht, hat⟩ := I.main.task (by rw [hpc]; decide)
  simp only [MainAt, hpc] at hat
  obtain ⟨hslot, hdone⟩ := hat
  have hstep : s.stepMain tasks =
      { s with
        eu := { s.eu with nthreads := 0 }, round := s.round + 1
        main := { s.main with pc := .pushLoad } } := by
    simp [stepMain, hpc, goto]
  have hjoined : ∀ i, (s.workers i).Idle ∧ (coreIdx i < s.eu.nthreads → s.RanToEnd (coreIdx i)) := by
    intro i
    have hworker := I.workers i
    simp only [WorkerOk, Main.phase, hpc] at hworker
    exact hworker
  have hfresh : ∀ c, ¬ ∃ e ∈ s.started, e.key = (c, s.round + 1) := by
    rintro c ⟨e, he, hkey⟩
    have hle := I.round_le e he
    have hround := (Prod.mk.inj hkey).2
    omega
  rw [hstep]
  refine ⟨I.exit, I.in_loop, I.wfi, (by intro h; cases h), I.bit, Or.inl ⟨rfl, hfresh 0⟩, ?_, ?_, ?_⟩
  · intro i
    exact ⟨(hjoined i).1, hfresh _⟩
  · refine I.runs.endRound ht ?_ rfl rfl rfl
    intro c hc
    cases c with
    | zero => exact hdone
    | succ c =>
      have hle := hteam t (List.mem_of_getElem? ht)
      refine (hjoined ⟨c, by omega⟩).2 ?_
      rw [hslot.nthreads]
      exact hc
  · intro e he
    exact Nat.le_succ_of_le (I.round_le e he)

/-- **A step of core 0.** -/
theorem Inv.main_step (I : s.Inv tasks) (hn : n ≤ 30) (hpos : ∀ t ∈ tasks, 1 ≤ t.nthreads)
    (hteam : ∀ t ∈ tasks, t.nthreads ≤ n + 1) : (s.stepMain tasks).Inv tasks := by
  by_cases hstart : s.main.pc = .pushLoad
  · cases ht : tasks[s.round]? with
    | none =>
      have hstep : s.stepMain tasks = s := by simp [stepMain, hstart, ht]
      rw [hstep]
      exact I
    | some t =>
      have hnew : ¬ s.Ran 0 := by
        rcases I.main with ⟨_, hnew⟩ | ⟨hpc, _⟩
        · exact hnew
        · exact absurd hstart hpc
      simp only [stepMain, hstart, ht]
      exact I.main_goes (by simp [Main.phase, hstart]) (Or.inr ⟨by simp, t, ht, I.in_loop, hnew⟩)
  · obtain ⟨t, ht, hat⟩ := I.main.task hstart
    have hlt := hpos t (List.mem_of_getElem? ht)
    cases hpc : s.main.pc
    case pushLoad => exact absurd hpc hstart
    case pushPoll => exact I.main_pushPoll hpc
    case setFn =>
      simp only [MainAt, hpc] at hat
      simp only [stepMain, hpc, ht]
      exact I.main_writes (by simp [Main.phase, hpc]) rfl rfl rfl rfl (Or.inr ⟨by simp, t, ht, hat, rfl⟩)
    case setData =>
      simp only [MainAt, hpc] at hat
      simp only [stepMain, hpc, ht]
      exact I.main_writes (by simp [Main.phase, hpc]) rfl rfl rfl rfl
        (Or.inr ⟨by simp, t, ht, hat.1, hat.2, rfl⟩)
    case setArgc =>
      simp only [MainAt, hpc] at hat
      simp only [stepMain, hpc, ht]
      exact I.main_writes (by simp [Main.phase, hpc]) rfl rfl rfl rfl
        (Or.inr ⟨by simp, t, ht, hat.1, hat.2.1, hat.2.2, rfl⟩)
    case setNthreads =>
      simp only [MainAt, hpc] at hat
      simp only [stepMain, hpc, ht]
      exact I.main_writes (by simp [Main.phase, hpc]) rfl rfl rfl rfl
        (Or.inr ⟨by simp, t, ht, hat.1, hat.2.1, hat.2.2.1, hat.2.2.2, rfl⟩)
    case runLoad =>
      simp only [MainAt, hpc] at hat
      have hsome : s.eu.nthreads ≠ 0 := by
        rw [hat.2.nthreads]
        omega
      simp only [stepMain, hpc, if_neg hsome]
      exact I.main_goes (by simp [Main.phase, hpc]) (Or.inr ⟨by simp, t, ht, hat.1, hat.2, hat.2.nthreads⟩)
    case resetFini =>
      simp only [MainAt, hpc] at hat
      obtain ⟨hnew, hslot, hscratch⟩ := hat
      have hslot' : ({ s.eu with finiCount := 0 } : Eu).Holds t :=
        ⟨hslot.fn, hslot.data, hslot.argc, hslot.nthreads⟩
      by_cases hmany : 1 < s.main.scratch
      · simp only [stepMain, hpc, if_pos hmany]
        exact I.main_writes (by simp [Main.phase, hpc]) rfl rfl rfl rfl
          (Or.inr ⟨by simp, t, ht, hnew, hslot', hscratch, by omega, rfl⟩)
      · simp only [stepMain, hpc, if_neg hmany]
        exact I.main_writes (by simp [Main.phase, hpc]) (by simp [Main.phase, hmany]) rfl rfl rfl
          (Or.inr ⟨by simp, t, ht, hnew, hslot', hscratch⟩)
    case wakeLoad =>
      simp only [MainAt, hpc] at hat
      obtain ⟨hnew, hslot, hscratch, hmany, hfini⟩ := hat
      simp only [stepMain, hpc]
      exact I.main_goes (by simp [Main.phase, hpc])
        (Or.inr ⟨by simp, t, ht, hnew, hslot, hscratch, hmany, hfini, I.in_loop⟩)
    case wakePoll =>
      simp only [MainAt, hpc] at hat
      obtain ⟨hnew, hslot, hscratch, hmany, hfini, _⟩ := hat
      simp only [stepMain, hpc]
      split
      · exact I
      · exact I.main_goes (by simp [Main.phase, hpc])
          (Or.inr ⟨by simp, t, ht, hnew, hslot, hscratch, hmany, hfini⟩)
    case wakeSet => exact I.main_wakeSet hn hpc
    case check =>
      simp only [MainAt, hpc] at hat
      have hsome : 0 < s.eu.nthreads := by
        rw [hat.2.1.nthreads]
        omega
      simp only [stepMain, hpc, if_pos hsome]
      exact I.main_goes (by simp [Main.phase, hpc]) (Or.inr ⟨by simp, t, ht, hat⟩)
    case loadFn =>
      simp only [MainAt, hpc] at hat
      simp only [stepMain, hpc]
      exact I.main_goes (by simp [Main.phase, hpc])
        (Or.inr ⟨by simp, t, ht, hat.1, hat.2.1, hat.2.2, hat.2.1.fn⟩)
    case loadData =>
      simp only [MainAt, hpc] at hat
      simp only [stepMain, hpc]
      exact I.main_goes (by simp [Main.phase, hpc])
        (Or.inr ⟨by simp, t, ht, hat.1, hat.2.1, hat.2.2.1, hat.2.2.2, hat.2.1.data⟩)
    case loadArgc =>
      simp only [MainAt, hpc] at hat
      simp only [stepMain, hpc]
      exact I.main_goes (by simp [Main.phase, hpc])
        (Or.inr ⟨by simp, t, ht, hat.1, hat.2.1, hat.2.2.1, hat.2.2.2.1, hat.2.2.2.2, hat.2.1.argc⟩)
    case call => exact I.main_call hpos hpc
    case running => exact I.main_running hpc
    case loadInLoop =>
      simp only [MainAt, hpc] at hat
      simp only [stepMain, hpc]
      exact I.main_goes (by simp [Main.phase, hpc]) (Or.inr ⟨by simp, t, ht, hat.1, I.in_loop, hat.2⟩)
    case pollFini => exact I.main_pollFini hpc
    case resetNthreads => exact I.main_resetNthreads hteam hpc

/-! ## Every run -/

theorem inv_init (n : Nat) (tasks : List Task) : (init n).Inv tasks := by
  refine ⟨rfl, rfl, ?_, (by intro h; cases h), (by intro i h; cases h), Or.inl ⟨rfl, ?_⟩, ?_, ?_, ?_⟩
  · have hone : tally Worker.inWfi (init n).workers = Fintype.card (Fin n) :=
      tally_eq_card (fun i => by simp [init, Worker.inWfi])
    rw [hone, Fintype.card_fin]
    rfl
  · rintro ⟨e, he, _⟩
    cases he
  · intro i
    refine ⟨⟨rfl, Or.inr rfl⟩, ?_⟩
    rintro ⟨e, he, _⟩
    cases he
  · refine ⟨List.nodup_nil, ?_, ?_, ?_⟩
    · intro e he
      cases he
    · intro e he
      cases he
    · intro r hr
      exact absurd hr (Nat.not_lt_zero r)
  · intro e he
    cases he

theorem inv_run (hn : n ≤ 30) (hpos : ∀ t ∈ tasks, 1 ≤ t.nthreads) (hteam : ∀ t ∈ tasks, t.nthreads ≤ n + 1) :
    ∀ xs, (machine n k tasks).Meets NoStaleReturn xs → ((machine n k tasks).run xs).Inv tasks := by
  apply Machine.invariant
  · exact inv_init n tasks
  · intro s x I hx
    cases x with
    | main => exact I.main_step hn hpos hteam
    | worker i => exact I.worker_step hx

end EventUnit

end Omp

end CachePool
