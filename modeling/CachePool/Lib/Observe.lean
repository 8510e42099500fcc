import CachePool.Lib.Machine

/-!
# What is observed along a run

The steps of a machine may each yield one observation.

* `observed` — the observations of a run, in order.
* `observed_filter` — steps that change nothing and yield nothing can be left out of the run.
* `observed_eq_iff` — two machines in step, of which one is right exactly where a condition holds: the
  observations of a run agree exactly if the condition holds at each of its steps.
* `verdict_iff` — a verdict that a step keeps exactly where a condition holds is good at the end of a run
  exactly if the condition holds at each of its steps.
-/

set_option autoImplicit false

universe u v w x

namespace Machine

variable {σ : Type u} {τ : Type v} {ι : Type w} {ω : Type x}

/-- The observations of the steps `xs` from `s`, oldest first. -/
def observed (M : Machine σ ι) (out : σ → ι → Option ω) : σ → List ι → List ω
  | _, [] => []
  | s, x :: xs => (out s x).toList ++ observed M out (M.next s x) xs

/-- Steps outside `p` change nothing and show nothing: the run of the steps of `p` shows the same. -/
theorem observed_filter {M N : Machine σ ι} {out out' : σ → ι → Option ω} {p : ι → Bool}
    (hin : ∀ s x, p x = true → M.next s x = N.next s x ∧ out s x = out' s x)
    (hout : ∀ s x, p x = false → M.next s x = s ∧ out s x = none) (s : σ) (xs : List ι) :
    N.observed out' s (xs.filter p) = M.observed out s xs := by
  induction xs generalizing s with
  | nil => rfl
  | cons x xs ih =>
    cases hp : p x with
    | true =>
      obtain ⟨hnext, hseen⟩ := hin s x hp
      simp only [List.filter_cons, hp, if_true, observed, ih, hnext, hseen]
    | false =>
      obtain ⟨hnext, hseen⟩ := hout s x hp
      simp [hp, observed, hnext, hseen, ih]

/-- Observations at the head of two lists: both lists go on alike, or the heads differ. -/
theorem toList_append_inj {o o' : Option ω} {l l' : List ω} (h : o.isSome = o'.isSome) :
    o.toList ++ l = o'.toList ++ l' ↔ o = o' ∧ l = l' := by
  cases o with
  | none =>
    cases o' with
    | none => simp
    | some b => simp at h
  | some a =>
    cases o' with
    | none => simp at h
    | some b => simp

/-- **The exact condition of agreement.**  `R` relates the states of the two machines as long as the
observations have agreed. -/
theorem observed_eq_iff {M : Machine σ ι} {N : Machine τ ι} {out : σ → ι → Option ω}
    {out' : τ → ι → Option ω} {R : σ → τ → Prop} {C : σ → ι → Prop}
    (hsome : ∀ s t x, R s t → (out s x).isSome = (out' t x).isSome)
    (hiff : ∀ s t x, R s t → (out s x = out' t x ↔ C s x))
    (hnext : ∀ s t x, R s t → C s x → R (M.next s x) (N.next t x)) {s : σ} {t : τ} (h : R s t)
    (xs : List ι) : M.observed out s xs = N.observed out' t xs ↔ M.MeetsFrom C s xs := by
  induction xs generalizing s t with
  | nil => simp [observed, MeetsFrom]
  | cons x xs ih =>
    rw [observed, observed, toList_append_inj (hsome s t x h), MeetsFrom, hiff s t x h]
    exact and_congr_right fun hC => ih (hnext s t x h hC)

/-- **The verdict rule.**  `P` holds along the runs of `C`-steps; upon it, the verdict `Q` is still good after
a step exactly if it was before and the step meets `D`. -/
theorem verdict_iff {M : Machine σ ι} {P Q : σ → Prop} {C D : σ → ι → Prop} (h0 : P M.init) (hQ0 : Q M.init)
    (hkeep : ∀ s x, P s → C s x → P (M.next s x))
    (hiff : ∀ s x, P s → C s x → (Q (M.next s x) ↔ Q s ∧ D s x)) (xs : List ι) (h : M.Meets C xs) :
    Q (M.run xs) ↔ M.Meets D xs := by
  induction xs using List.reverseRecOn with
  | nil => exact ⟨fun _ => Meets.nil D, fun _ => hQ0⟩
  | append_singleton xs x ih =>
    obtain ⟨hxs, hx⟩ := meets_concat.mp h
    rw [run_concat, hiff _ x (invariant h0 hkeep xs hxs) hx, ih hxs, meets_concat]

end Machine
