import CachePool.Lib.Threads

/-!
# Threads with regions of their own, and phases between barriers

A thread may read back what it has written, as long as no other thread touches it: it still does what it does
alone.  Where all threads wait for each other between two phases, each phase begins with the memory that the
one before has left.

* `Alone` — a thread alone that reads shared cells and those of its region, and writes its region;
  `Alone.bind` and `Alone.forUp` — its rules; `Does.alone` — a stretch that reads nothing it writes.
* `regions_finish` — threads whose regions do not overlap.
* `phases`, `phases_finish` — an invariant of the memory between phases.
-/

set_option autoImplicit false

universe u v w x

namespace Threads

variable {A : Type u} {V : Type v} {ρ : Type w} {σ : Type w} [DecidableEq A]

/-- In memory `m` the thread makes `n` accesses, which read the cells of `S` and `P` and write those of `P`,
and ends with `m'` and `r`. -/
inductive Runs (S P : Set A) : (A → V) → Code A V ρ → Nat → (A → V) → ρ → Prop
  | ret (m : A → V) (r : ρ) : Runs S P m (.ret r) 0 m r
  | load {m m' : A → V} {a : A} {k : V → Code A V ρ} {n : Nat} {r : ρ} (ha : a ∈ S ∪ P)
      (hk : Runs S P m (k (m a)) n m' r) : Runs S P m (.load a k) (n + 1) m' r
  | store {m m' : A → V} {a : A} {v : V} {k : Code A V ρ} {n : Nat} {r : ρ} (ha : a ∈ P)
      (hk : Runs S P (Function.update m a v) k n m' r) : Runs S P m (.store a v k) (n + 1) m' r

/-- A run of the thread alone. -/
def Alone (S P : Set A) (m : A → V) (c : Code A V ρ) (m' : A → V) (r : ρ) : Prop := ∃ n, Runs S P m c n m' r

variable {S P : Set A} {m m' m'' : A → V}

theorem Runs.bind {c : Code A V ρ} {f : ρ → Code A V σ} {n n' : Nat} {r : ρ} {r' : σ}
    (h : Runs S P m c n m' r) (h' : Runs S P m' (f r) n' m'' r') : Runs S P m (c.bind f) (n + n') m'' r' := by
  induction h with
  | ret m r => rwa [Nat.zero_add]
  | load ha _ ih =>
    rw [Nat.succ_add]
    exact .load ha (ih h')
  | store ha _ ih =>
    rw [Nat.succ_add]
    exact .store ha (ih h')

/-- Only the region is written. -/
theorem Runs.frame {c : Code A V ρ} {n : Nat} {r : ρ} (h : Runs S P m c n m' r) {a : A} (ha : a ∉ P) :
    m' a = m a := by
  induction h with
  | ret => rfl
  | load _ _ ih => exact ih
  | store hb _ ih => rw [ih, Function.update_of_ne (ne_of_mem_of_not_mem hb ha).symm]

theorem Alone.bind {c : Code A V ρ} {f : ρ → Code A V σ} {r : ρ} {r' : σ} (h : Alone S P m c m' r)
    (h' : Alone S P m' (f r) m'' r') : Alone S P m (c.bind f) m'' r' := by
  obtain ⟨n, h⟩ := h
  obtain ⟨n', h'⟩ := h'
  exact ⟨_, h.bind h'⟩

theorem Alone.frame {c : Code A V ρ} {r : ρ} (h : Alone S P m c m' r) {a : A} (ha : a ∉ P) : m' a = m a := by
  obtain ⟨n, h⟩ := h
  exact h.frame ha

/-- The counted loop, with an invariant of the memory and the state. -/
theorem Alone.forUp {b : Nat → σ → Code A V σ} {I : Nat → (A → V) → σ → Prop} {s : σ} (h0 : I 0 m s) {n : Nat}
    (hpass : ∀ i m s, i < n → I i m s → ∃ m' s', Alone S P m (b i s) m' s' ∧ I (i + 1) m' s') :
    ∃ m' s', Alone S P m (forUp n b s) m' s' ∧ I n m' s' := by
  induction n with
  | zero => exact ⟨m, s, ⟨0, .ret m s⟩, h0⟩
  | succ n ih =>
    obtain ⟨m', s', hruns, hI⟩ := ih fun i m s hi => hpass i m s (Nat.lt_succ_of_lt hi)
    obtain ⟨m'', s'', hbody, hI'⟩ := hpass n m' s' (Nat.lt_succ_self n) hI
    exact ⟨m'', s'', hruns.bind hbody, hI'⟩

/-- A stretch that reads none of the cells it writes. -/
theorem Does.alone {R : Set A} {c : Code A V ρ} {W : Set (A × V)} {r : ρ} (h : Does m R c W r)
    (hR : R ⊆ S ∪ P) (hW : ∀ a v, (a, v) ∈ W → a ∈ P ∧ a ∉ R)
    (hagree : ∀ a v v', (a, v) ∈ W → (a, v') ∈ W → v = v') :
    ∃ m', Alone S P m c m' r ∧ Written m (fun _ : Unit => W) m' := by
  -- the memory differs from the first one where the stretch has written
  suffices H : ∀ m₁ : A → V, (∀ a ∈ R, m₁ a = m a) → ∃ m', Alone S P m₁ c m' r ∧
      Written m₁ (fun _ : Unit => W) m' from H m fun _ _ => rfl
  induction h with
  | ret r =>
    exact fun m₁ _ => ⟨m₁, ⟨0, .ret m₁ r⟩, fun _ _ _ he => absurd he (Set.notMem_empty _), fun _ _ => rfl⟩
  | load ha _ ih =>
    intro m₁ hsame
    obtain ⟨m', ⟨n, hruns⟩, hwritten⟩ := ih hW hagree m₁ hsame
    rw [← hsame _ ha] at hruns
    exact ⟨m', ⟨_, .load (hR ha) hruns⟩, hwritten⟩
  | @store a v k W r _ ih =>
    intro m₁ hsame
    have hav := hW a v (Set.mem_insert _ _)
    obtain ⟨m', ⟨n, hruns⟩, hwritten⟩ := ih (fun b u hb => hW b u (Set.mem_insert_of_mem _ hb))
      (fun b u u' hb hb' => hagree b u u' (Set.mem_insert_of_mem _ hb) (Set.mem_insert_of_mem _ hb'))
      (Function.update m₁ a v) (fun b hb => by
        rw [Function.update_of_ne (ne_of_mem_of_not_mem hb hav.2)]
        exact hsame b hb)
    refine ⟨m', ⟨_, .store hav.1 hruns⟩, fun i b u hb => ?_, fun b hb => ?_⟩
    · rcases Set.mem_insert_iff.mp hb with heq | hb
      · obtain ⟨rfl, rfl⟩ := Prod.mk.inj heq
        by_cases hlater : ∃ u', (b, u') ∈ W
        · obtain ⟨u', hu'⟩ := hlater
          rw [hwritten.written i b u' hu']
          exact hagree b u' u (Set.mem_insert_of_mem _ hu') (Set.mem_insert _ _)
        · rw [hwritten.frame b fun _ u' hu' => hlater ⟨u', hu'⟩, Function.update_self]
      · exact hwritten.written i b u hb
    · have hne : b ≠ a := fun heq => hb () v (heq ▸ Set.mem_insert _ _)
      rw [hwritten.frame b fun i u hu => hb i u (Set.mem_insert_of_mem _ hu), Function.update_of_ne hne]

/-! ## Threads together -/

variable {ι : Type x} [DecidableEq ι]

/-- Each thread is where it is alone, with the memory that it sees. -/
structure Apart (S : Set A) (P : ι → Set A) (m : A → V) (n : ι → Nat) (m' : ι → A → V) (r : ι → ρ)
    (xs : List ι) (p : Pool ι A V ρ) : Prop where
  runs : ∀ i, ∃ m₁, Runs S (P i) m₁ (p.code i) (n i - xs.count i) (m' i) (r i) ∧
    ∀ a ∈ S ∪ P i, m₁ a = p.mem a
  mem : ∀ a, (∀ i, a ∉ P i) → p.mem a = m a

variable {P : ι → Set A} {n : ι → Nat} {m' : ι → A → V} {r : ι → ρ} {code : ι → Code A V ρ}

theorem Apart.next {xs : List ι} {p : Pool ι A V ρ} (h : Apart S P m n m' r xs p)
    (hapart : ∀ i j a, a ∈ P i → a ∈ P j → i = j) (hshared : ∀ i a, a ∈ P i → a ∉ S) (i : ι) :
    Apart S P m n m' r (xs ++ [i]) (p.next i) := by
  have hcount : ∀ j, (xs ++ [i]).count j = xs.count j + if j = i then 1 else 0 := by
    intro j
    rw [List.count_append, List.count_singleton]
    simp only [beq_iff_eq, @eq_comm _ i]
  obtain ⟨m₁, hruns, hsame⟩ := h.runs i
  have hothers : ∀ j, j ≠ i → ∃ m₁, Runs S (P j) m₁ (p.code j) (n j - (xs ++ [i]).count j) (m' j) (r j) ∧
      ∀ a ∈ S ∪ P j, m₁ a = p.mem a := fun j hj => by
    rw [hcount, if_neg hj, Nat.add_zero]
    exact h.runs j
  unfold Pool.next
  generalize hc : p.code i = c at hruns
  generalize hn : n i - xs.count i = left at hruns
  have hleft : n i - (xs ++ [i]).count i = left - 1 := by
    rw [hcount, if_pos rfl]
    omega
  cases hruns with
  | ret =>
    refine ⟨fun j => ?_, h.mem⟩
    by_cases hj : j = i
    · subst hj
      refine ⟨m' j, ?_, hsame⟩
      rw [hc, hleft]
      exact .ret _ _
    · exact hothers j hj
  | load ha hk =>
    refine ⟨fun j => ?_, h.mem⟩
    by_cases hj : j = i
    · subst hj
      refine ⟨m₁, ?_, hsame⟩
      simp only [Function.update_self]
      rw [hleft, ← hsame _ ha]
      exact hk
    · simpa only [Function.update_of_ne hj] using hothers j hj
  | @store _ _ a v _ _ _ ha hk =>
    refine ⟨fun j => ?_, fun b hb => ?_⟩
    · by_cases hj : j = i
      · subst hj
        refine ⟨Function.update m₁ a v, ?_, fun b hb => ?_⟩
        · simp only [Function.update_self]
          rw [hleft]
          exact hk
        · by_cases hba : b = a
          · subst hba
            simp only [Function.update_self]
          · simp only [Function.update_of_ne hba]
            exact hsame b hb
      · obtain ⟨m₂, hruns₂, hsame₂⟩ := hothers j hj
        refine ⟨m₂, by simpa only [Function.update_of_ne hj] using hruns₂, fun b hb => ?_⟩
        have hba : b ≠ a := by
          rintro rfl
          rcases hb with hb | hb
          · exact hshared i b ha hb
          · exact hj (hapart j i b hb ha)
        simp only [Function.update_of_ne hba]
        exact hsame₂ b hb
    · have hba : b ≠ a := fun heq => hb i (heq ▸ ha)
      simp only [Function.update_of_ne hba]
      exact h.mem b hb

/-- **Threads with regions of their own.**  There are numbers such that, once each thread has had as many
accesses, all have ended as they do alone, and outside their regions nothing has changed. -/
theorem regions_finish (hruns : ∀ i, Alone S (P i) m (code i) (m' i) (r i))
    (hapart : ∀ i j a, a ∈ P i → a ∈ P j → i = j) (hshared : ∀ i a, a ∈ P i → a ∉ S) :
    ∃ n : ι → Nat, ∀ xs : List ι, (∀ i, n i ≤ xs.count i) →
      (∀ i, ((pool m code).run xs).code i = .ret (r i)) ∧
      (∀ i, ∀ a ∈ P i, ((pool m code).run xs).mem a = m' i a) ∧
      ∀ a, (∀ i, a ∉ P i) → ((pool m code).run xs).mem a = m a := by
  choose n hn using hruns
  refine ⟨n, fun xs hxs => ?_⟩
  have hrun : Apart S P m n m' r xs ((pool m code).run xs) := by
    clear hxs
    induction xs using List.reverseRecOn with
    | nil =>
      exact ⟨fun i => ⟨m, by rw [List.count_nil, Nat.sub_zero]; exact hn i, fun _ _ => rfl⟩, fun _ _ => rfl⟩
    | append_singleton xs i ih =>
      rw [Machine.run_concat]
      exact ih.next hapart hshared i
  have hend : ∀ i, ((pool m code).run xs).code i = .ret (r i) ∧
      ∀ a ∈ P i, ((pool m code).run xs).mem a = m' i a := by
    intro i
    obtain ⟨m₁, hruns, hsame⟩ := hrun.runs i
    rw [Nat.sub_eq_zero_of_le (hxs i)] at hruns
    generalize hc : ((pool m code).run xs).code i = c at hruns
    cases hruns
    exact ⟨rfl, fun a ha => (hsame a (Or.inr ha)).symm⟩
  exact ⟨fun i => (hend i).1, fun i => (hend i).2, hrun.mem⟩

/-! ## Phases -/

/-- The memory before phase `n`, where phase `i` runs under schedule `xs i` and every thread waits for the
others at its end. -/
def phases (code : Nat → ι → Code A V ρ) (xs : Nat → List ι) (m : A → V) : Nat → A → V
  | 0 => m
  | n + 1 => ((pool (phases code xs m n) (code n)).run (xs n)).mem

/-- An invariant of the memory between phases, which each phase keeps in whatever order its accesses come. -/
theorem phases_finish {code : Nat → ι → Code A V ρ} {I : Nat → (A → V) → Prop} {n : Nat} (h0 : I 0 m)
    (hphase : ∀ i m, i < n → I i m → ∃ k : ι → Nat, ∀ xs : List ι, (∀ j, k j ≤ xs.count j) →
      (∀ j, ∃ r, ((pool m (code i)).run xs).code j = .ret r) ∧ I (i + 1) ((pool m (code i)).run xs).mem) :
    ∃ k : Nat → (A → V) → ι → Nat, ∀ xs : Nat → List ι,
      (∀ i < n, ∀ j, k i (phases code xs m i) j ≤ (xs i).count j) →
      (∀ i < n, ∀ j, ∃ r, ((pool (phases code xs m i) (code i)).run (xs i)).code j = .ret r) ∧
      I n (phases code xs m n) := by
  choose! k hk using hphase
  refine ⟨k, fun xs hxs => ?_⟩
  have hI : ∀ i ≤ n, I i (phases code xs m i) := by
    intro i hi
    induction i with
    | zero => exact h0
    | succ i ih => exact (hk i _ (by omega) (ih (by omega)) (xs i) (hxs i (by omega))).2
  exact ⟨fun i hi => (hk i _ hi (hI i (by omega)) (xs i) (hxs i hi)).1, hI n (Nat.le_refl n)⟩

end Threads
