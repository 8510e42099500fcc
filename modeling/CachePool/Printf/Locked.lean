import CachePool.Printf.Format
import CachePool.Runtime.Mutex

/-!
# Printing under a lock (`debug_printf_locked` in `printf_lock.c`, `spin_lock` around `printf` in `spin-lock`)

Harts that print to the console between the acquisition of a lock and its release.  The console is one, the
characters reach it one by one, and the harts take their steps in any order.

* `Line` — a call of `printf`, with the characters it sends; `Line.accesses` — the section of a hart that
  prints it.
* `console` — the machine of the lock with nothing but such sections.
* `Printing` — every section is a line, or what is left of one.
* `lines_whole` — the console shows whole lines in the order in which the lock was obtained.
-/

set_option autoImplicit false

namespace CachePool

namespace Printf

open Serial Mutex

/-- A call of `printf` that is defined, and what it sends; `debug_printf_locked` hands no arguments on. -/
structure Line (F : FloatTexts) where
  format : CString
  args : List Arg
  result : Int
  sent : List Char
  ok : printf_ F format args = some (result, sent)

variable {F : FloatTexts}

/-- `_putchar`: the character goes to the console. -/
def putchar (character : Char) : Access Unit (List Char) := fun r console => (r, console ++ [character])

/-- What a hart does between the acquisition and the release. -/
def Line.accesses (l : Line F) : List (Access Unit (List Char)) := l.sent.map putchar

/-- A hart prints a line under the lock, or goes on. -/
inductive Call (F : FloatTexts) where
  | print (l : Line F)
  | step

def Call.action : Call F → Action Unit (List Char)
  | .print l => .call .spinLock l.accesses
  | .step => .step

variable {ι : Type} [DecidableEq ι]

/-- The lock `printf_lock` and the console. -/
def console (F : FloatTexts) (ι : Type) [DecidableEq ι] :
    Machine (State ι Unit (List Char)) (ι × Call F) where
  init := (mutex ⟨fun _ => (), []⟩).init
  next s x := s.next (x.1, x.2.action)

theorem console_run (xs : List (ι × Call F)) :
    (console F ι).run xs = (mutex ⟨fun _ => (), []⟩).run (xs.map fun x => (x.1, x.2.action)) := by
  induction xs using List.reverseRecOn with
  | nil => rfl
  | append_singleton xs x ih =>
    rw [Machine.run_concat, ih, List.map_append, List.map_singleton, Machine.run_concat]
    rfl

/-! ## Sections are lines -/

/-- What is left to send of a line. -/
def Tail (todo : List (Access Unit (List Char))) : Prop := ∃ text : List Char, todo = text.map putchar

/-- **Every section is a line**, and what a hart has still to do is the rest of one. -/
structure Printing (F : FloatTexts) (s : State ι Unit (List Char)) : Prop where
  tail : ∀ h, Tail (s.hart h).todo
  issued : ∀ h, ∀ t ∈ s.issued h, ∃ l : Line F, t = .locked l.accesses

theorem Printing.setHart {s s' : State ι Unit (List Char)} (hP : Printing F s) {h : ι}
    {x : Hart Unit (List Char)} (hhart : s'.hart = (s.setHart h x).hart) (hx : Tail x.todo)
    (hissued : s'.issued = s.issued) : Printing F s' where
  tail g := by
    rw [hhart]
    exact forall_setHart (P := fun y => Tail y.todo) hP.tail hx g
  issued g := by
    rw [hissued]
    exact hP.issued g

theorem Printing.next {s : State ι Unit (List Char)} (hP : Printing F s) (x : ι × Call F) :
    Printing F ((console F ι).next s x) := by
  obtain ⟨h, c⟩ := x
  have hkeep : Tail (s.hart h).todo := hP.tail h
  cases c with
  | print l =>
    cases hpc : (s.hart h).pc with
    | out =>
      have hnext : (console F ι).next s (h, .print l) =
          (s.setHart h { s.hart h with pc := Kind.spinLock.entry, todo := l.accesses }).issue h
            (.locked l.accesses) := by
        simp [console, State.next, Call.action, hpc]
      rw [hnext]
      refine ⟨fun g => ?_, fun g t ht => ?_⟩
      · exact forall_setHart (P := fun y => Tail y.todo) hP.tail ⟨l.sent, rfl⟩ g
      · by_cases hg : g = h
        · subst hg
          simp only [State.issue, State.setHart, Function.update_self, List.mem_append,
            List.mem_singleton] at ht
          rcases ht with ht | rfl
          · exact hP.issued g t ht
          · exact ⟨l, rfl⟩
        · simp only [State.issue, State.setHart, Function.update_of_ne hg] at ht
          exact hP.issued g t ht
    | _ =>
      have hnext : (console F ι).next s (h, .print l) = s := by simp [console, State.next, Call.action, hpc]
      rw [hnext]
      exact hP
  | step =>
    change Printing F (s.next (h, .step))
    cases hpc : (s.hart h).pc with
    | out => simpa [State.next, hpc] using hP
    | inside =>
      cases htodo : (s.hart h).todo with
      | nil =>
        refine hP.setHart (h := h) (x := { s.hart h with pc := .release }) ?_ hkeep ?_ <;>
          simp [State.next, hpc, htodo, State.goto, State.setHart]
      | cons a rest =>
        have hrest : Tail rest := by
          obtain ⟨text, htext⟩ := hkeep
          rw [htodo] at htext
          cases text with
          | nil => cases htext
          | cons ch text =>
            rw [List.map_cons, List.cons.injEq] at htext
            exact ⟨text, htext.2⟩
        refine hP.setHart (h := h) (x := { s.hart h with todo := rest }) ?_ hrest ?_ <;>
          simp [State.next, hpc, htodo, State.setHart]
    | li =>
      exact hP.setHart (h := h) (x := { s.hart h with pc := .amoswap, t0 := 1#32 })
        (by simp [State.next, hpc]) hkeep (by simp [State.next, hpc, State.setHart])
    | lw =>
      exact hP.setHart (h := h) (x := { s.hart h with pc := .bnezLoad, t0 := s.mtx })
        (by simp [State.next, hpc]) hkeep (by simp [State.next, hpc, State.setHart])
    | amoswap =>
      exact hP.setHart (h := h) (x := { s.hart h with pc := .bnez, t0 := s.mtx })
        (by simp [State.next, hpc, State.swap, State.setHart]) hkeep
        (by simp [State.next, hpc, State.swap, State.setHart])
    | testAndSet =>
      exact hP.setHart (h := h) (x := { s.hart h with pc := .whileSet, t0 := s.mtx })
        (by simp [State.next, hpc, State.swap, State.setHart]) hkeep
        (by simp [State.next, hpc, State.swap, State.setHart])
    | bnez =>
      exact hP.setHart (h := h)
        (x := { s.hart h with pc := if (s.hart h).t0 = 0#32 then .inside else .amoswap })
        (by simp [State.next, hpc, State.goto]) hkeep (by simp [State.next, hpc, State.goto, State.setHart])
    | bnezLoad =>
      exact hP.setHart (h := h) (x := { s.hart h with pc := if (s.hart h).t0 = 0#32 then .li else .lw })
        (by simp [State.next, hpc, State.goto]) hkeep (by simp [State.next, hpc, State.goto, State.setHart])
    | whileSet =>
      exact hP.setHart (h := h)
        (x := { s.hart h with pc := if (s.hart h).t0 = 0#32 then .inside else .testAndSet })
        (by simp [State.next, hpc, State.goto]) hkeep (by simp [State.next, hpc, State.goto, State.setHart])
    | release =>
      exact hP.setHart (h := h) (x := { s.hart h with pc := .out })
        (by simp [State.next, hpc, State.goto, State.setHart]) hkeep
        (by simp [State.next, hpc, State.goto, State.setHart])

theorem printing_run (xs : List (ι × Call F)) : Printing F ((console F ι).run xs) := by
  apply Machine.invariant_of_next (P := Printing F)
  · exact ⟨fun _ => ⟨[], rfl⟩, fun _ t ht => by simp [console, mutex] at ht⟩
  · exact fun _ x hP => hP.next x

/-! ## The console -/

theorem exec_putchar (text : List Char) (r : Unit) (sent : List Char) :
    exec (text.map putchar) r sent = (r, sent ++ text) := by
  induction text generalizing sent with
  | nil => simp
  | cons ch text ih =>
    rw [List.map_cons, exec_cons]
    simp [putchar, ih]

theorem replay_lines (s₀ : Store ι Unit (List Char)) (lines : List (ι × Line F)) :
    (replay s₀ (lines.map fun e => (e.1, .locked e.2.accesses))).data =
      s₀.data ++ lines.flatMap fun e => e.2.sent := by
  induction lines using List.reverseRecOn with
  | nil => simp
  | append_singleton lines e ih =>
    rw [List.map_append, List.map_singleton, replay_concat, Store.set_data]
    change (exec (e.2.sent.map putchar) _ _).2 = _
    rw [exec_putchar, ih]
    simp

/-- The log is one of lines. -/
theorem log_lines {κ : Type} (log : List (κ × Task Unit (List Char)))
    (h : ∀ e ∈ log, ∃ l : Line F, e.2 = .locked l.accesses) :
    ∃ lines : List (κ × Line F), log = lines.map fun e => (e.1, .locked e.2.accesses) := by
  induction log with
  | nil => exact ⟨[], rfl⟩
  | cons e log ih =>
    obtain ⟨l, hl⟩ := h e (by simp)
    obtain ⟨lines, rfl⟩ := ih fun e' he' => h e' (by simp [he'])
    refine ⟨(e.1, l) :: lines, ?_⟩
    rw [List.map_cons, ← hl]

/-- **Lines are whole.**  In every run of harts that print under the lock, the lines can be put in one order,
that in which the lock was obtained for them and in which each hart has asked for its own, such that the
console shows these lines one after the other: all of them, unless a hart holds the lock and has still to send
the rest of the last one. -/
theorem lines_whole (xs : List (ι × Call F)) :
    ∃ (lines : List (ι × Line F)) (rest : List Char),
      ((console F ι).run xs).log = lines.map (fun e => (e.1, .locked e.2.accesses)) ∧
      (∀ h, ((console F ι).run xs).issued h =
        (lines.filter fun e => e.1 = h).map (fun e => .locked e.2.accesses) ++
          (((console F ι).run xs).hart h).pending) ∧
      ((console F ι).run xs).store.data ++ rest = lines.flatMap (fun e => e.2.sent) ∧
      (rest ≠ [] → ∃ h, (((console F ι).run xs).hart h).holds = true ∧
        (((console F ι).run xs).hart h).todo = rest.map putchar) := by
  have hP := printing_run xs
  have hL : Logged ((console F ι).run xs) := by
    rw [console_run]
    exact Logged.run _ _
  obtain ⟨o, hI⟩ : ∃ o, Inv ⟨fun _ => (), []⟩ ((console F ι).run xs) o := by
    rw [console_run]
    exact Inv.run _ _
  have hall : ∀ e ∈ ((console F ι).run xs).log, ∃ l : Line F, e.2 = .locked l.accesses := by
    intro e he
    apply hP.issued e.1
    rw [hL e.1]
    apply List.mem_append_left
    exact List.mem_map.mpr ⟨e, List.mem_filter.mpr ⟨he, by simp⟩, rfl⟩
  obtain ⟨lines, hlines⟩ := log_lines _ hall
  have horder : ∀ h, tasksOf ((console F ι).run xs).log h =
      (lines.filter fun e => e.1 = h).map fun e => .locked e.2.accesses := by
    intro h
    rw [hlines, tasksOf, List.filter_map, List.map_map]
    rfl
  have hreplay := replay_lines ⟨fun _ => (), []⟩ lines
  rw [← hlines, List.nil_append] at hreplay
  have hagrees := hI.agrees
  unfold Agrees at hagrees
  rcases o with _ | h
  · refine ⟨lines, [], hlines, fun h => ?_, ?_, fun hne => absurd rfl hne⟩
    · rw [← horder]
      exact hL h
    · rw [hagrees] at hreplay
      rw [List.append_nil]
      exact hreplay
  · obtain ⟨rest, hrest⟩ := hP.tail h
    refine ⟨lines, rest, hlines, fun h => ?_, ?_, fun _ => ⟨h, (hI.holder h).mpr rfl, hrest⟩⟩
    · rw [← horder]
      exact hL h
    · rw [hagrees] at hreplay
      simp only [Option.map_some, finished, hrest, exec_putchar, Store.set_data] at hreplay
      exact hreplay

end Printf

end CachePool
