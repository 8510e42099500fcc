import Mathlib.Data.List.Basic
import Mathlib.Logic.Function.Basic
import Mathlib.Tactic

/-!
# Serial execution of guarded sections

Parties with registers of their own work on common data.  A section is a list of accesses to the data; what a
party does between its sections touches its registers only.  Sections interleaved with everything else are to
have the effect they have when each is executed at once.

* `exec` — a section at once; `replay` — a history of work and sections, each at once.
* `Agrees` — data and registers are those of the history, but for what is left of the section of the party
  that is inside one.
* `Agrees.work`, `Agrees.enter`, `Agrees.access`, `Agrees.leave` — the rules of the four things that happen to
  them; `Agrees.work` also covers a party that works while another is inside.
-/

set_option autoImplicit false

universe u v w

namespace Serial

variable {ι : Type u} {ρ : Type v} {δ : Type w}

/-- One access to the data, with the registers of the party that makes it. -/
abbrev Access (ρ : Type v) (δ : Type w) := ρ → δ → ρ × δ

/-- What a party does: work on its registers, or a section. -/
inductive Task (ρ : Type v) (δ : Type w) where
  | work (f : ρ → ρ)
  | locked (accesses : List (Access ρ δ))

/-- The accesses one after the other. -/
def exec : List (Access ρ δ) → ρ → δ → ρ × δ
  | [], r, d => (r, d)
  | a :: as, r, d => exec as (a r d).1 (a r d).2

@[simp] theorem exec_nil (r : ρ) (d : δ) : exec [] r d = (r, d) := rfl

@[simp] theorem exec_cons (a : Access ρ δ) (as : List (Access ρ δ)) (r : ρ) (d : δ) :
    exec (a :: as) r d = exec as (a r d).1 (a r d).2 := rfl

def Task.exec : Task ρ δ → ρ → δ → ρ × δ
  | .work f, r, d => (f r, d)
  | .locked as, r, d => Serial.exec as r d

/-- Registers of the parties, and the data. -/
structure Store (ι : Type u) (ρ : Type v) (δ : Type w) where
  regs : ι → ρ
  data : δ

variable [DecidableEq ι]

/-- What `h` makes of the store by an outcome `x` of its own registers and the data. -/
def Store.set (s : Store ι ρ δ) (h : ι) (x : ρ × δ) : Store ι ρ δ :=
  ⟨Function.update s.regs h x.1, x.2⟩

@[simp] theorem Store.set_regs_self (s : Store ι ρ δ) (h : ι) (x : ρ × δ) : (s.set h x).regs h = x.1 := by
  simp [Store.set]

@[simp] theorem Store.set_data (s : Store ι ρ δ) (h : ι) (x : ρ × δ) : (s.set h x).data = x.2 := rfl

theorem Store.set_regs_ne (s : Store ι ρ δ) {g h : ι} (hne : g ≠ h) (x : ρ × δ) :
    (s.set h x).regs g = s.regs g := by
  simp [Store.set, hne]

@[simp] theorem Store.set_set (s : Store ι ρ δ) (h : ι) (x y : ρ × δ) : (s.set h x).set h y = s.set h y := by
  simp [Store.set]

@[simp] theorem Store.set_self (s : Store ι ρ δ) (h : ι) : s.set h (s.regs h, s.data) = s := by
  simp [Store.set]

/-- Work of one party and an outcome of another may change places. -/
theorem Store.set_comm (s : Store ι ρ δ) {g h : ι} (hne : g ≠ h) (r : ρ) (x : ρ × δ) :
    (s.set g (r, s.data)).set h x = (s.set h x).set g (r, (s.set h x).data) := by
  simp only [Store.set, Store.mk.injEq, and_true]
  exact Function.update_comm hne r x.1 s.regs

/-- The history at once, task after task. -/
def replay (s : Store ι ρ δ) (log : List (ι × Task ρ δ)) : Store ι ρ δ :=
  log.foldl (fun s e => s.set e.1 (e.2.exec (s.regs e.1) s.data)) s

@[simp] theorem replay_nil (s : Store ι ρ δ) : replay s [] = s := rfl

@[simp] theorem replay_concat (s : Store ι ρ δ) (log : List (ι × Task ρ δ)) (e : ι × Task ρ δ) :
    replay s (log ++ [e]) =
      (replay s log).set e.1 (e.2.exec ((replay s log).regs e.1) (replay s log).data) := by
  simp [replay, List.foldl_append]

/-- The store with the rest of the section of the party inside executed at once. -/
def finished (s : Store ι ρ δ) : Option (ι × List (Access ρ δ)) → Store ι ρ δ
  | none => s
  | some (h, rest) => s.set h (exec rest (s.regs h) s.data)

/-- **The store `s` is that of the history `log` from `s₀`**, but for the rest of the section `inside`. -/
def Agrees (s₀ : Store ι ρ δ) (log : List (ι × Task ρ δ)) (s : Store ι ρ δ)
    (inside : Option (ι × List (Access ρ δ))) : Prop :=
  replay s₀ log = finished s inside

variable {s₀ s : Store ι ρ δ} {log : List (ι × Task ρ δ)} {inside : Option (ι × List (Access ρ δ))} {h : ι}
  {rest : List (Access ρ δ)}

theorem Agrees.start (s₀ : Store ι ρ δ) : Agrees s₀ [] s₀ none := rfl

/-- A party that is not inside works. -/
theorem Agrees.work (hA : Agrees s₀ log s inside) (hout : ∀ rest, inside ≠ some (h, rest)) (f : ρ → ρ) :
    Agrees s₀ (log ++ [(h, .work f)]) (s.set h (f (s.regs h), s.data)) inside := by
  unfold Agrees at hA ⊢
  rw [replay_concat, hA]
  rcases inside with _ | ⟨g, rest⟩
  · rfl
  · have hne : h ≠ g := by
      rintro rfl
      exact hout rest rfl
    simp only [finished, Task.exec]
    rw [Store.set_comm s hne, Store.set_regs_ne s hne, Store.set_regs_ne s hne.symm]
    simp only [Store.set_data]

/-- A party enters its section when nobody is inside. -/
theorem Agrees.enter (hA : Agrees s₀ log s none) (accesses : List (Access ρ δ)) :
    Agrees s₀ (log ++ [(h, .locked accesses)]) s (some (h, accesses)) := by
  unfold Agrees at hA ⊢
  rw [replay_concat, hA]
  rfl

/-- The party inside makes its next access. -/
theorem Agrees.access {a : Access ρ δ} (hA : Agrees s₀ log s (some (h, a :: rest))) :
    Agrees s₀ log (s.set h (a (s.regs h) s.data)) (some (h, rest)) := by
  unfold Agrees at hA ⊢
  rw [hA]
  simp only [finished, exec_cons, Store.set_set, Store.set_regs_self, Store.set_data]

/-- The party inside leaves when it has made all its accesses. -/
theorem Agrees.leave (hA : Agrees s₀ log s (some (h, []))) : Agrees s₀ log s none := by
  unfold Agrees at hA ⊢
  rw [hA]
  simp only [finished, exec_nil, Store.set_self]

end Serial
