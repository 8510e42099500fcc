import Mathlib.Data.List.Basic
import Mathlib.Tactic

/-!
# Synchronous machines and their runs

A machine has a reset state and a next-state function of the current state and one cycle's inputs.
A run is the list of inputs of its cycles, oldest first.

* `Meets` — a condition on (state, inputs) holds in every cycle of a run; `meets_concat` peels the
  last cycle.
* `invariant` — a predicate that holds after reset and is kept by every cycle that meets the
  condition holds at the end of every run whose cycles all meet it; `invariant_upon` — its cycles may
  use an invariant of every run; `meets_congr_upon` — two conditions that an invariant makes the same.
* `meets_iff_meetsFrom` — a decidable condition is decidable along a given run.
* `stable_iff` — what every cycle of a kind leaves unchanged is unchanged over every stretch of such cycles,
  and conversely.
* `run_append_replicate`, `exists_drained` — a cycle that brings a measure down, repeated, brings it to
  zero.
* `AtMostOnce` — no two steps of a run are of one kind; `atMostOnce_of_mark` proves it from a mark that such
  a step leaves behind.
* `happens_within` — what brings a measure down, until something happens, is not done more often than the
  measure says before it happens.
* `exists_continuation_along`, `exists_continuation` — if some step brings a measure down as long as the goal
  is not reached, every run can be continued to the goal; the first keeps a property of the run on the way.
-/

set_option autoImplicit false

universe u v w

/-- Reset state and next-state function. -/
structure Machine (σ : Type u) (ι : Type v) where
  init : σ
  next : σ → ι → σ

namespace Machine

variable {σ : Type u} {ι : Type v} (M : Machine σ ι)

/-- The state after the cycles `xs`, oldest first. -/
def run (xs : List ι) : σ := xs.foldl M.next M.init

@[simp] theorem run_nil : M.run [] = M.init := rfl

@[simp] theorem run_concat (xs : List ι) (x : ι) : M.run (xs ++ [x]) = M.next (M.run xs) x := by
  simp [run]

/-- `C` holds in every cycle of the run, of the state the cycle starts in and its inputs. -/
def Meets (C : σ → ι → Prop) (xs : List ι) : Prop :=
  ∀ pre x post, xs = pre ++ x :: post → C (M.run pre) x

variable {M}

theorem Meets.nil (C : σ → ι → Prop) : M.Meets C [] := by
  intro pre x post h
  simp at h

theorem meets_concat {C : σ → ι → Prop} {xs : List ι} {x : ι} :
    M.Meets C (xs ++ [x]) ↔ M.Meets C xs ∧ C (M.run xs) x := by
  constructor
  · intro h
    refine ⟨fun pre y post hxs => h pre y (post ++ [x]) (by simp [hxs]), h xs x [] rfl⟩
  · rintro ⟨h, hx⟩ pre y post heq
    rcases post.eq_nil_or_concat with rfl | ⟨post', z, rfl⟩
    · obtain ⟨rfl, hy⟩ := List.append_inj' heq rfl
      cases hy
      exact hx
    · have heq' : xs ++ [x] = (pre ++ y :: post') ++ [z] := by simpa using heq
      exact h pre y post' (List.append_inj' heq' rfl).1

theorem Meets.and {C D : σ → ι → Prop} {xs : List ι} (hC : M.Meets C xs) (hD : M.Meets D xs) :
    M.Meets (fun s x => C s x ∧ D s x) xs :=
  fun pre x post heq => ⟨hC pre x post heq, hD pre x post heq⟩

/-- The condition read off a list of cycles, from any state. -/
def MeetsFrom (M : Machine σ ι) (C : σ → ι → Prop) : σ → List ι → Prop
  | _, [] => True
  | s, x :: xs => C s x ∧ MeetsFrom M C (M.next s x) xs

theorem meetsFrom_append {C : σ → ι → Prop} (s : σ) (xs ys : List ι) :
    M.MeetsFrom C s (xs ++ ys) ↔ M.MeetsFrom C s xs ∧ M.MeetsFrom C (xs.foldl M.next s) ys := by
  induction xs generalizing s with
  | nil => simp [MeetsFrom]
  | cons x xs ih => simp only [List.cons_append, MeetsFrom, ih, List.foldl_cons, and_assoc]

theorem meets_iff_meetsFrom {C : σ → ι → Prop} {xs : List ι} :
    M.Meets C xs ↔ M.MeetsFrom C M.init xs := by
  induction xs using List.reverseRecOn with
  | nil => exact ⟨fun _ => trivial, fun _ => Meets.nil C⟩
  | append_singleton xs x ih =>
    rw [meets_concat, meetsFrom_append, ih]
    simp only [MeetsFrom, and_true]
    rfl

instance decidableMeetsFrom (C : σ → ι → Prop) [∀ s x, Decidable (C s x)] :
    ∀ (s : σ) (xs : List ι), Decidable (M.MeetsFrom C s xs)
  | _, [] => isTrue trivial
  | s, x :: xs =>
    have := decidableMeetsFrom C (M.next s x) xs
    inferInstanceAs (Decidable (C s x ∧ M.MeetsFrom C (M.next s x) xs))

instance (C : σ → ι → Prop) [∀ s x, Decidable (C s x)] (xs : List ι) : Decidable (M.Meets C xs) :=
  decidable_of_iff _ meets_iff_meetsFrom.symm

/-- A run that meets a condition does so in each of its beginnings. -/
theorem Meets.beginning {C : σ → ι → Prop} {xs pre post : List ι} (h : M.Meets C xs)
    (heq : xs = pre ++ post) : M.Meets C pre :=
  fun p x q hp => h p x (q ++ post) (by simp [heq, hp])

/-- **The invariant rule upon an invariant.**  Each step may use what holds in every run. -/
theorem invariant_upon {P Q : σ → Prop} {C : σ → ι → Prop} (hQ : ∀ xs, Q (M.run xs)) (h0 : P M.init)
    (hstep : ∀ s x, Q s → P s → C s x → P (M.next s x)) :
    ∀ xs, M.Meets C xs → P (M.run xs) := by
  intro xs
  induction xs using List.reverseRecOn with
  | nil => exact fun _ => h0
  | append_singleton xs x ih =>
    intro h
    obtain ⟨hxs, hx⟩ := meets_concat.mp h
    rw [run_concat]
    exact hstep _ _ (hQ xs) (ih hxs) hx

/-- **The invariant rule.** -/
theorem invariant {P : σ → Prop} {C : σ → ι → Prop} (h0 : P M.init)
    (hstep : ∀ s x, P s → C s x → P (M.next s x)) :
    ∀ xs, M.Meets C xs → P (M.run xs) := by
  apply invariant_upon (Q := fun _ => True) (fun _ => trivial) h0
  intro s x _ h hx
  exact hstep s x h hx

/-- **The exact condition of a run.**  Where an invariant makes two conditions on a cycle the same, and the
cycles that meet them keep it, the runs that meet the one are those that meet the other. -/
theorem meets_congr_upon {P : σ → Prop} {C D : σ → ι → Prop} (h0 : P M.init)
    (hiff : ∀ s x, P s → (C s x ↔ D s x)) (hstep : ∀ s x, P s → D s x → P (M.next s x)) (xs : List ι) :
    M.Meets C xs ↔ M.Meets D xs := by
  induction xs using List.reverseRecOn with
  | nil => exact ⟨fun _ => Meets.nil D, fun _ => Meets.nil C⟩
  | append_singleton xs x ih =>
    rw [meets_concat, meets_concat, ih]
    apply and_congr_right
    intro h
    exact hiff _ x (invariant h0 hstep xs h)

/-- What every cycle keeps holds at the end of every run. -/
theorem invariant_of_next {P : σ → Prop} (h0 : P M.init) (hstep : ∀ s x, P s → P (M.next s x)) :
    ∀ xs, P (M.run xs) := by
  intro xs
  apply invariant (C := fun _ _ => True) h0
  · intro s x h _
    exact hstep s x h
  · exact fun _ _ _ _ => trivial

/-- What every cycle keeps holds at the end of a run if it holds at some point of it. -/
theorem kept_after {P : σ → Prop} (hstep : ∀ s x, P s → P (M.next s x)) {pre : List ι}
    (h : P (M.run pre)) (post : List ι) : P (M.run (pre ++ post)) := by
  induction post using List.reverseRecOn with
  | nil => rwa [List.append_nil]
  | append_singleton post x ih =>
    rw [← List.append_assoc, run_concat]
    exact hstep _ x ih

/-! ## Stretches of a run -/

/-- `R` holds in every cycle of `mid`, run after `pre`. -/
def Through (M : Machine σ ι) (R : σ → ι → Prop) (pre mid : List ι) : Prop :=
  ∀ as x bs, mid = as ++ x :: bs → R (M.run (pre ++ as)) x

theorem through_concat {R : σ → ι → Prop} {pre mid : List ι} {x : ι} :
    M.Through R pre (mid ++ [x]) ↔ M.Through R pre mid ∧ R (M.run (pre ++ mid)) x := by
  constructor
  · intro h
    refine ⟨fun as y bs heq => h as y (bs ++ [x]) (by simp [heq]), h mid x [] rfl⟩
  · rintro ⟨h, hx⟩ as y bs heq
    rcases bs.eq_nil_or_concat with rfl | ⟨bs', z, rfl⟩
    · obtain ⟨rfl, hy⟩ := List.append_inj' heq rfl
      cases hy
      exact hx
    · have heq' : mid ++ [x] = (as ++ y :: bs') ++ [z] := by simpa using heq
      exact h as y bs' (List.append_inj' heq' rfl).1

/-- **The stretch rule.**  `f` is unchanged over every stretch of `R`-cycles iff it is unchanged by each of
them. -/
theorem stable_iff {β : Type w} (f : σ → β) (R : σ → ι → Prop) (xs : List ι) :
    (∀ pre mid post, xs = pre ++ mid ++ post → M.Through R pre mid →
      f (M.run (pre ++ mid)) = f (M.run pre)) ↔
    M.Meets (fun s x => R s x → f (M.next s x) = f s) xs := by
  constructor
  · intro h pre x post heq hR
    rw [← run_concat]
    apply h pre [x] post (by simp [heq])
    rw [← List.nil_append [x], through_concat, List.append_nil]
    exact ⟨fun as y bs hnil => absurd hnil (by simp), hR⟩
  · intro h pre mid
    induction mid using List.reverseRecOn with
    | nil =>
      intro post _ _
      rw [List.append_nil]
    | append_singleton mid x ih =>
      intro post heq hthrough
      obtain ⟨hmid, hx⟩ := through_concat.mp hthrough
      rw [← ih ([x] ++ post) (by simp [heq]) hmid, ← List.append_assoc, run_concat]
      exact h (pre ++ mid) x post (by simp [heq]) hx

/-! ## Steps taken once -/

/-- The run has at most one step of kind `C`. -/
def AtMostOnce (M : Machine σ ι) (C : σ → ι → Prop) (xs : List ι) : Prop :=
  ∀ pre x mid y post, xs = pre ++ x :: (mid ++ y :: post) → C (M.run pre) x →
    ¬ C (M.run (pre ++ x :: mid)) y

/-- **The mark rule.**  A step of kind `C` leaves a mark that stays, and no such step is taken once the mark
is there. -/
theorem atMostOnce_of_mark {C : σ → ι → Prop} {L : σ → Prop} (hkeep : ∀ s x, L s → L (M.next s x))
    (hmark : ∀ xs x, C (M.run xs) x → L (M.next (M.run xs) x))
    (hfree : ∀ xs x, C (M.run xs) x → ¬ L (M.run xs)) (xs : List ι) : M.AtMostOnce C xs := by
  intro pre x mid y post _ hx hy
  have hL : L (M.run (pre ++ [x])) := by
    rw [run_concat]
    exact hmark pre x hx
  have hlater := kept_after hkeep hL mid
  rw [List.append_assoc] at hlater
  exact hfree _ y hy hlater

/-! ## Waiting for a step -/

/-- **The waiting rule.**  As long as nothing of kind `E` happens, `P` is kept and every step of kind `O`
brings the measure down, which is never zero: within as many steps of kind `O` as the measure says, something
of kind `E` happens. -/
theorem happens_within {P : σ → Prop} {E : σ → ι → Prop} {O : ι → Bool} {μ : σ → Nat}
    (hpos : ∀ s, P s → 0 < μ s)
    (hstep : ∀ s x, P s → ¬ E s x → P (M.next s x) ∧ μ (M.next s x) + (if O x then 1 else 0) ≤ μ s)
    (pre mid : List ι) (hP : P (M.run pre)) (hmany : μ (M.run pre) ≤ (mid.filter O).length) :
    ∃ as x bs, mid = as ++ x :: bs ∧ E (M.run (pre ++ as)) x := by
  induction mid generalizing pre with
  | nil =>
    have h0 := hpos _ hP
    simp only [List.filter_nil, List.length_nil] at hmany
    omega
  | cons x mid ih =>
    by_cases hE : E (M.run pre) x
    · exact ⟨[], x, mid, rfl, by rwa [List.append_nil]⟩
    · obtain ⟨hP', hle⟩ := hstep _ x hP hE
      rw [← run_concat] at hP' hle
      have hmany' : μ (M.run (pre ++ [x])) ≤ (mid.filter O).length := by
        by_cases hO : O x = true
        · simp only [hO, if_true, List.filter_cons_of_pos, List.length_cons] at hle hmany
          omega
        · simp only [hO, if_false, List.filter_cons_of_neg, not_false_iff, Bool.false_eq_true] at hle hmany
          omega
      obtain ⟨as, y, bs, rfl, hy⟩ := ih (pre ++ [x]) hP' hmany'
      exact ⟨x :: as, y, bs, rfl, by simpa using hy⟩

/-! ## Continuing a run -/

/-- **The progress rule over runs.**  Where the goal is not reached, some step keeps the run one of `H` and
brings the measure down. -/
theorem exists_continuation_along {H : List ι → Prop} {Q : σ → Prop} {μ : σ → Nat}
    (hstep : ∀ xs, H xs → ¬ Q (M.run xs) →
      ∃ x, H (xs ++ [x]) ∧ μ (M.next (M.run xs) x) < μ (M.run xs))
    (xs : List ι) (h : H xs) : ∃ ys, H (xs ++ ys) ∧ Q (M.run (xs ++ ys)) := by
  generalize hn : μ (M.run xs) = n
  induction n using Nat.strong_induction_on generalizing xs with
  | _ n ih =>
    by_cases hQ : Q (M.run xs)
    · exact ⟨[], by rwa [List.append_nil], by rwa [List.append_nil]⟩
    · obtain ⟨x, hH, hlt⟩ := hstep xs h hQ
      rw [← run_concat] at hlt
      obtain ⟨ys, hys, hgoal⟩ := ih _ (by omega) (xs ++ [x]) hH rfl
      rw [List.append_assoc] at hys hgoal
      exact ⟨x :: ys, hys, hgoal⟩

/-- **The progress rule.**  Where the goal is not reached, some step keeps `P` and brings the measure down. -/
theorem exists_continuation {P Q : σ → Prop} {μ : σ → Nat}
    (hstep : ∀ xs, P (M.run xs) → ¬ Q (M.run xs) →
      ∃ x, P (M.next (M.run xs) x) ∧ μ (M.next (M.run xs) x) < μ (M.run xs))
    (xs : List ι) (h : P (M.run xs)) : ∃ ys, Q (M.run (xs ++ ys)) := by
  obtain ⟨ys, _, hgoal⟩ := exists_continuation_along (H := fun xs => P (M.run xs)) (Q := Q) (μ := μ)
    (fun xs hP hQ => by simpa only [run_concat] using hstep xs hP hQ) xs h
  exact ⟨ys, hgoal⟩

/-! ## Repeating one cycle -/

theorem run_append_replicate_succ (xs : List ι) (x : ι) (k : Nat) :
    M.run (xs ++ List.replicate (k + 1) x) = M.next (M.run (xs ++ List.replicate k x)) x := by
  rw [List.replicate_succ', ← List.append_assoc, run_concat]

/-- What one cycle leaves unchanged, its repetition leaves unchanged. -/
theorem run_append_replicate {β : Type w} (f : σ → β) {x : ι} (hf : ∀ s, f (M.next s x) = f s)
    (xs : List ι) (k : Nat) : f (M.run (xs ++ List.replicate k x)) = f (M.run xs) := by
  induction k with
  | zero => rw [List.replicate_zero, List.append_nil]
  | succ k ih => rw [run_append_replicate_succ, hf, ih]

theorem Meets.append_replicate {C : σ → ι → Prop} {xs : List ι} (h : M.Meets C xs) {x : ι}
    (hx : ∀ s, C s x) (k : Nat) : M.Meets C (xs ++ List.replicate k x) := by
  induction k with
  | zero => rwa [List.replicate_zero, List.append_nil]
  | succ k ih =>
    rw [List.replicate_succ', ← List.append_assoc]
    exact meets_concat.mpr ⟨ih, hx _⟩

/-- **The drain rule.**  A cycle that brings the measure down in every state of a run in which it is
not zero brings it to zero when it is repeated. -/
theorem exists_drained {μ : σ → Nat} {x : ι}
    (hμ : ∀ xs, μ (M.run xs) ≠ 0 → μ (M.next (M.run xs) x) < μ (M.run xs)) (xs : List ι) :
    ∃ k, μ (M.run (xs ++ List.replicate k x)) = 0 := by
  have hdown : ∀ k, (∃ j, μ (M.run (xs ++ List.replicate j x)) = 0) ∨
      μ (M.run (xs ++ List.replicate k x)) + k ≤ μ (M.run xs) := by
    intro k
    induction k with
    | zero => exact Or.inr (by simp)
    | succ k ih =>
      rcases ih with hdone | hle
      · exact Or.inl hdone
      · by_cases h0 : μ (M.run (xs ++ List.replicate k x)) = 0
        · exact Or.inl ⟨k, h0⟩
        · right
          have hlt := hμ (xs ++ List.replicate k x) h0
          rw [run_append_replicate_succ]
          omega
  rcases hdown (μ (M.run xs) + 1) with hdone | hle
  · exact hdone
  · omega

end Machine
