import Mathlib.Logic.Function.Iterate

/-!
# Programs with loops, and what they end in

A program takes fuel, which each pass through a loop costs one unit of, and may run out of it.  A statement
that never ends has no result, whatever the fuel.

* `act`, `attempt`, `seq`, `bindState`, `whileDo`, `doWhile`, `forUp` — the programs.
* `Ends` — with enough fuel, a program started in one state ends in another.
* `Ends.doWhile_iterate` — a loop whose number of passes is known.
* `Total` — from every state that meets the precondition a program ends, and in the postcondition.
* `Total.whileDo`, `Total.forUp` — a loop by its invariant and, for `while`, a number that its passes lower.
* `Partial` — where a program started in the precondition ends, it does so in the postcondition.
-/

set_option autoImplicit false

namespace Loop

variable {σ : Type*}

/-- A program: fuel and a state to the state it ends in, if the fuel is enough. -/
abbrev Prog (σ : Type*) := Nat → σ → Option σ

/-- A statement that always ends. -/
def act (f : σ → σ) : Prog σ := fun _ s => some (f s)

/-- A statement that ends in some states. -/
def attempt (f : σ → Option σ) : Prog σ := fun _ s => f s

def seq (p q : Prog σ) : Prog σ := fun n s => (p n s).bind (q n)

/-- A program that reads the state it is started in. -/
def bindState (f : σ → Prog σ) : Prog σ := fun n s => f s n s

/-- `while (c) body`, where the body goes on (`yield`), breaks (`done`) or never ends. -/
def whileDo (c : σ → Bool) (body : σ → Option (ForInStep σ)) : Prog σ
  | 0, _ => none
  | n + 1, s =>
    if c s then
      match body s with
      | some (.yield s') => whileDo c body n s'
      | some (.done s') => some s'
      | none => none
    else some s

/-- `do body while (c)`. -/
def doWhile (c : σ → Bool) (body : σ → σ) : Prog σ :=
  seq (act body) (whileDo c fun s => some (.yield (body s)))

/-- `for (i = 0; i < k; ++i) body`. -/
def forUp (k : Nat) (body : Nat → σ → Option σ) : Prog σ := fun n s =>
  (whileDo (fun t : Nat × σ => decide (t.1 < k))
    (fun t => (body t.1 t.2).map fun s' => .yield (t.1 + 1, s')) n (0, s)).map Prod.snd

def Ends (p : Prog σ) (s s' : σ) : Prop := ∃ n, ∀ m, n ≤ m → p m s = some s'

def Partial (P : σ → Prop) (p : Prog σ) (Q : σ → Prop) : Prop := ∀ n s s', P s → p n s = some s' → Q s'

def Total (P : σ → Prop) (p : Prog σ) (Q : σ → Prop) : Prop := ∀ s, P s → ∃ s', Ends p s s' ∧ Q s'

variable {P Q R : σ → Prop} {p q : Prog σ} {s s' s'' : σ}

theorem Ends.unique (h : Ends p s s') (h' : Ends p s s'') : s' = s'' := by
  obtain ⟨n, hn⟩ := h
  obtain ⟨n', hn'⟩ := h'
  have h₁ := hn (max n n') (Nat.le_max_left _ _)
  have h₂ := hn' (max n n') (Nat.le_max_right _ _)
  rw [h₁] at h₂
  exact Option.some.inj h₂

theorem Ends.act (f : σ → σ) (s : σ) : Ends (act f) s (f s) := ⟨0, fun _ _ => rfl⟩

theorem Ends.seq (h : Ends p s s') (h' : Ends q s' s'') : Ends (seq p q) s s'' := by
  obtain ⟨n, hn⟩ := h
  obtain ⟨n', hn'⟩ := h'
  refine ⟨max n n', fun m hm => ?_⟩
  unfold Loop.seq
  rw [hn m (Nat.le_trans (Nat.le_max_left _ _) hm)]
  exact hn' m (Nat.le_trans (Nat.le_max_right _ _) hm)

theorem Ends.bindState {f : σ → Prog σ} (h : Ends (f s) s s') : Ends (bindState f) s s' := h

theorem Ends.while_exit {c : σ → Bool} {body : σ → Option (ForInStep σ)} (hc : c s = false) :
    Ends (whileDo c body) s s := by
  refine ⟨1, fun m hm => ?_⟩
  obtain ⟨m, rfl⟩ := Nat.exists_eq_add_of_le' hm
  simp [whileDo, hc]

theorem Ends.while_done {c : σ → Bool} {body : σ → Option (ForInStep σ)} (hc : c s = true)
    (hb : body s = some (.done s')) :
    Ends (whileDo c body) s s' := by
  refine ⟨1, fun m hm => ?_⟩
  obtain ⟨m, rfl⟩ := Nat.exists_eq_add_of_le' hm
  simp [whileDo, hc, hb]

theorem Ends.while_yield {c : σ → Bool} {body : σ → Option (ForInStep σ)} (hc : c s = true)
    (hb : body s = some (.yield s'))
    (h : Ends (whileDo c body) s' s'') : Ends (whileDo c body) s s'' := by
  obtain ⟨n, hn⟩ := h
  refine ⟨n + 1, fun m hm => ?_⟩
  obtain ⟨m, rfl⟩ := Nat.exists_eq_add_of_le' (show 1 ≤ m by omega)
  simp only [whileDo, hc, hb, if_true]
  exact hn m (by omega)

/-- A `do` loop whose condition first fails after `k` passes. -/
theorem Ends.doWhile_iterate {c : σ → Bool} {body : σ → σ} {k : Nat} (hk : 1 ≤ k)
    (hgo : ∀ j, 1 ≤ j → j < k → c (body^[j] s) = true) (hstop : c (body^[k] s) = false) :
    Ends (doWhile c body) s (body^[k] s) := by
  have hrest : ∀ d j, 1 ≤ j → j + d = k →
      Ends (Loop.whileDo c fun s => some (.yield (body s))) (body^[j] s) (body^[k] s) := by
    intro d
    induction d with
    | zero =>
      intro j _ hjk
      rw [show k = j by omega] at hstop ⊢
      exact Ends.while_exit hstop
    | succ d ih =>
      intro j hj hjk
      have hnext := ih (j + 1) (by omega) (by omega)
      rw [Function.iterate_succ_apply' body j s] at hnext
      exact hnext.while_yield (hgo j hj (by omega)) rfl
  exact (Ends.act body s).seq (hrest (k - 1) 1 (Nat.le_refl 1) (by omega))

theorem Total.mono {P' Q' : σ → Prop} (h : Total P p Q) (hP : ∀ s, P' s → P s) (hQ : ∀ s, Q s → Q' s) :
    Total P' p Q' := by
  intro s hs
  obtain ⟨s', he, hq⟩ := h s (hP s hs)
  exact ⟨s', he, hQ s' hq⟩

theorem Total.act {f : σ → σ} (h : ∀ s, P s → Q (f s)) : Total P (act f) Q :=
  fun s hs => ⟨f s, Ends.act f s, h s hs⟩

theorem Total.seq (hp : Total P p Q) (hq : Total Q q R) : Total P (seq p q) R := by
  intro s hs
  obtain ⟨s', he, hs'⟩ := hp s hs
  obtain ⟨s'', he', hs''⟩ := hq s' hs'
  exact ⟨s'', he.seq he', hs''⟩

theorem Total.bindState {f : σ → Prog σ} (h : ∀ s, P s → Total P (f s) Q) : Total P (bindState f) Q := by
  intro s hs
  obtain ⟨s', he, hq⟩ := h s hs s hs
  exact ⟨s', he.bindState, hq⟩

/-- A pass keeps `P` and lowers `μ`, or breaks into `Q`. -/
theorem Total.whileDo {c : σ → Bool} {body : σ → Option (ForInStep σ)} (μ : σ → Nat)
    (hpass : ∀ s, P s → c s = true →
      (∃ s', body s = some (.yield s') ∧ P s' ∧ μ s' < μ s) ∨ ∃ s', body s = some (.done s') ∧ Q s')
    (hexit : ∀ s, P s → c s = false → Q s) :
    Total P (whileDo c body) Q := by
  intro s hs
  induction hμ : μ s using Nat.strongRecOn generalizing s with
  | _ k ih =>
    cases hc : c s with
    | false => exact ⟨s, Ends.while_exit hc, hexit s hs hc⟩
    | true =>
      rcases hpass s hs hc with ⟨s', hb, hs', hlt⟩ | ⟨s', hb, hq⟩
      · obtain ⟨s'', he, hq⟩ := ih (μ s') (hμ ▸ hlt) s' hs' rfl
        exact ⟨s'', he.while_yield hc hb, hq⟩
      · exact ⟨s', Ends.while_done hc hb, hq⟩

theorem Total.attempt {f : σ → Option σ} (h : ∀ s, P s → ∃ s', f s = some s' ∧ Q s') :
    Total P (attempt f) Q := by
  intro s hs
  obtain ⟨s', hf, hq⟩ := h s hs
  exact ⟨s', ⟨0, fun _ _ => hf⟩, hq⟩

theorem Total.forUp {k : Nat} {body : Nat → σ → Option σ} (I : Nat → σ → Prop)
    (hpass : ∀ i s, i < k → I i s → ∃ s', body i s = some s' ∧ I (i + 1) s') :
    Total (I 0) (forUp k body) (I k) := by
  intro s hs
  let J : Nat × σ → Prop := fun t => t.1 ≤ k ∧ I t.1 t.2
  have hloop : Total J
      (Loop.whileDo (fun t : Nat × σ => decide (t.1 < k))
        (fun t => (body t.1 t.2).map fun s' => .yield (t.1 + 1, s')))
      (fun t => I k t.2) := by
    apply Total.whileDo (fun t => k - t.1)
    · rintro ⟨i, s⟩ ⟨-, hi⟩ hc
      have hlt : i < k := by simpa using hc
      have hlow : k - (i + 1) < k - i := by omega
      obtain ⟨s', hb, hi'⟩ := hpass i s hlt hi
      exact Or.inl ⟨(i + 1, s'), by simp [hb], ⟨hlt, hi'⟩, hlow⟩
    · rintro ⟨i, s⟩ ⟨hle, hi⟩ hc
      have hge : ¬ i < k := by simpa using hc
      have hik : i = k := by
        dsimp only at hle
        omega
      exact hik ▸ hi
  obtain ⟨t, ⟨n, hn⟩, ht⟩ := hloop (0, s) ⟨Nat.zero_le k, hs⟩
  refine ⟨t.2, ⟨n, fun m hm => ?_⟩, ht⟩
  unfold Loop.forUp
  rw [hn m hm]
  rfl

theorem Partial.act {f : σ → σ} (h : ∀ s, P s → Q (f s)) : Partial P (act f) Q := by
  intro n s s' hs he
  rw [← Option.some.inj he]
  exact h s hs

theorem Partial.seq (hp : Partial P p Q) (hq : Partial Q q R) : Partial P (seq p q) R := by
  intro n s s'' hs he
  obtain ⟨s', hs', he'⟩ := Option.bind_eq_some_iff.mp he
  exact hq n s' s'' (hp n s s' hs hs') he'

/-- A pass that ends keeps `P`, or breaks into `Q`. -/
theorem Partial.whileDo {c : σ → Bool} {body : σ → Option (ForInStep σ)}
    (hyield : ∀ s s', P s → c s = true → body s = some (.yield s') → P s')
    (hdone : ∀ s s', P s → c s = true → body s = some (.done s') → Q s')
    (hexit : ∀ s, P s → c s = false → Q s) : Partial P (whileDo c body) Q := by
  intro n
  induction n with
  | zero =>
    intro s s' _ he
    cases he
  | succ n ih =>
    intro s s' hs he
    unfold Loop.whileDo at he
    cases hc : c s with
    | false =>
      rw [hc] at he
      rw [← Option.some.inj he]
      exact hexit s hs hc
    | true =>
      simp only [hc, if_true] at he
      cases hb : body s with
      | none => simp [hb] at he
      | some r =>
        cases r with
        | yield t =>
          simp only [hb] at he
          exact ih t s' (hyield s t hs hc hb) he
        | done t =>
          simp only [hb, Option.some.injEq] at he
          exact he ▸ hdone s t hs hc hb

/-- After a part that always ends. -/
theorem Total.seq_partial (hp : Total P p Q) (hq : Partial Q q R) (hs : P s) (he : Ends (Loop.seq p q) s s'') :
    R s'' := by
  obtain ⟨s', ⟨n, hn⟩, hs'⟩ := hp s hs
  obtain ⟨n', hn'⟩ := he
  have hend := hn' (max n n') (Nat.le_max_right _ _)
  unfold Loop.seq at hend
  rw [hn _ (Nat.le_max_left _ _)] at hend
  exact hq _ s' s'' hs' hend

end Loop
