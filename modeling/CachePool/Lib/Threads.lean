import CachePool.Lib.Machine
import Mathlib.Data.Set.Lattice

/-!
# Threads that write where nobody reads

A thread is a tree of accesses to a memory that it shares with other threads: a load goes on according to the
value that is found.  Threads that read only cells which none of them writes, and write equal values where
they write the same cell, do what each does alone, in whatever order their accesses come.

* `Code`, `forUp`, `whileDo` — threads and their loops, with fuel for those that may not end.
* `Does` — what a thread that reads the cells of `R` only writes, and what it ends with; `Does.bind`,
  `Does.forUp`, `Does.whileDo` — its rules.
* `pool` — threads whose accesses are interleaved by a schedule.
* `threads_finish` — what the memory is on the way, and once every thread has ended.
-/

set_option autoImplicit false

universe u v w x

namespace Threads

variable {A : Type u} {V : Type v} {ρ : Type w} {σ : Type w}

/-- A thread that ends with a `ρ`; `starved` is one that has run out of fuel. -/
inductive Code (A : Type u) (V : Type v) (ρ : Type w) where
  | ret (r : ρ)
  | load (a : A) (k : V → Code A V ρ)
  | store (a : A) (v : V) (k : Code A V ρ)
  | starved

def Code.bind : Code A V ρ → (ρ → Code A V σ) → Code A V σ
  | .ret r, f => f r
  | .load a k, f => .load a fun v => (k v).bind f
  | .store a v k, f => .store a v (k.bind f)
  | .starved, _ => .starved

/-- `for (i = 0; i < n; ++i) body`. -/
def forUp : Nat → (Nat → σ → Code A V σ) → σ → Code A V σ
  | 0, _, s => .ret s
  | n + 1, body, s => (forUp n body s).bind (body n)

/-- `while (c) body`, where the body goes on (`yield`) or breaks (`done`). -/
def whileDo (c : σ → Bool) (body : σ → Code A V (ForInStep σ)) : Nat → σ → Code A V σ
  | 0, _ => .starved
  | n + 1, s =>
    if c s then
      (body s).bind fun r =>
        match r with
        | .yield s' => whileDo c body n s'
        | .done s' => .ret s'
    else .ret s

/-! ## A thread alone -/

/-- In memory `m` the thread reads cells of `R`, writes the pairs of `W`, and ends with `r`. -/
inductive Does (m : A → V) (R : Set A) : Code A V ρ → Set (A × V) → ρ → Prop
  | ret (r : ρ) : Does m R (.ret r) ∅ r
  | load {a : A} {k : V → Code A V ρ} {W : Set (A × V)} {r : ρ} (ha : a ∈ R) (hk : Does m R (k (m a)) W r) :
      Does m R (.load a k) W r
  | store {a : A} {v : V} {k : Code A V ρ} {W : Set (A × V)} {r : ρ} (hk : Does m R k W r) :
      Does m R (.store a v k) (insert (a, v) W) r

variable {m : A → V} {R : Set A}

theorem Does.congr {c : Code A V ρ} {W W' : Set (A × V)} {r : ρ} (h : Does m R c W r) (hW : W = W') :
    Does m R c W' r := hW ▸ h

theorem Does.bind {c : Code A V ρ} {f : ρ → Code A V σ} {W W' : Set (A × V)} {r : ρ} {r' : σ}
    (h : Does m R c W r) (h' : Does m R (f r) W' r') : Does m R (c.bind f) (W ∪ W') r' := by
  induction h with
  | ret r => exact h'.congr (Set.empty_union W').symm
  | load ha _ ih => exact .load ha (ih h')
  | store _ ih => exact (Does.store (ih h')).congr (Set.insert_union).symm

/-- A stretch that writes nothing. -/
theorem Does.bind_empty {c : Code A V ρ} {f : ρ → Code A V σ} {W : Set (A × V)} {r : ρ} {r' : σ}
    (h : Does m R c ∅ r) (h' : Does m R (f r) W r') : Does m R (c.bind f) W r' :=
  (h.bind h').congr (Set.empty_union W)

/-- The counted loop, with an invariant of the states and the writes of each pass. -/
theorem Does.forUp {b : Nat → σ → Code A V σ} {I : Nat → σ → Prop} {W : Nat → Set (A × V)} {s : σ}
    (h0 : I 0 s) {n : Nat}
    (hpass : ∀ i s, i < n → I i s → ∃ s', Does m R (b i s) (W i) s' ∧ I (i + 1) s') :
    ∃ s', Does m R (forUp n b s) {e | ∃ i < n, e ∈ W i} s' ∧ I n s' := by
  induction n with
  | zero => exact ⟨s, (Does.ret s).congr (by simp), h0⟩
  | succ n ih =>
    obtain ⟨s', hdoes, hI⟩ := ih fun i s hi => hpass i s (Nat.lt_succ_of_lt hi)
    obtain ⟨s'', hbody, hI'⟩ := hpass n s' (Nat.lt_succ_self n) hI
    refine ⟨s'', (hdoes.bind hbody).congr ?_, hI'⟩
    ext e
    simp only [Set.mem_union, Set.mem_ofPred_eq, Nat.lt_succ_iff_lt_or_eq, or_and_right, exists_or,
      exists_eq_left]

/-- A pass of a loop: `I` holds where it goes on, with less left to do, and `Q` where it breaks. -/
def Passed (I Q : σ → Prop) (left : σ → Nat) (bound : Nat) : ForInStep σ → Prop
  | .yield s => I s ∧ left s < bound
  | .done s => Q s

/-- The loop by an invariant of the state and the writes so far, and a number that its passes lower. -/
theorem Does.whileDo {c : σ → Bool} {b : σ → Code A V (ForInStep σ)} {I Q : σ → Set (A × V) → Prop}
    {f : σ → Nat} (hexit : ∀ s W, I s W → c s = false → Q s W)
    (hpass : ∀ s W, I s W → c s = true → ∃ W' r, Does m R (b s) W' r ∧
      Passed (fun s => I s (W ∪ W')) (fun s => Q s (W ∪ W')) f (f s) r)
    {n : Nat} {s : σ} {W : Set (A × V)} (hn : f s < n) (hI : I s W) :
    ∃ W' s', Does m R (whileDo c b n s) W' s' ∧ Q s' (W ∪ W') := by
  induction n generalizing s W with
  | zero => exact absurd hn (Nat.not_lt_zero _)
  | succ n ih =>
    unfold Threads.whileDo
    cases hc : c s with
    | false => exact ⟨∅, s, Does.ret s, by rw [Set.union_empty]; exact hexit s W hI hc⟩
    | true =>
      obtain ⟨W', r, hdoes, hpassed⟩ := hpass s W hI hc
      rw [if_pos rfl]
      cases r with
      | done s' => exact ⟨W' ∪ ∅, s', hdoes.bind (.ret s'), by rwa [Set.union_empty]⟩
      | yield s' =>
        obtain ⟨hI', hleft⟩ := hpassed
        obtain ⟨W'', s'', hrest, hQ⟩ := ih (by omega) hI'
        exact ⟨W' ∪ W'', s'', hdoes.bind hrest, by rwa [← Set.union_assoc]⟩

/-- The loop that writes nothing. -/
theorem Does.whileDo_reads {c : σ → Bool} {b : σ → Code A V (ForInStep σ)} {I Q : σ → Prop}
    {f : σ → Nat} (hexit : ∀ s, I s → c s = false → Q s)
    (hpass : ∀ s, I s → c s = true → ∃ r, Does m R (b s) ∅ r ∧ Passed I Q f (f s) r)
    {n : Nat} {s : σ} (hn : f s < n) (hI : I s) :
    ∃ s', Does m R (Threads.whileDo c b n s) ∅ s' ∧ Q s' := by
  obtain ⟨W, s', hdoes, hQ, hW⟩ := Does.whileDo (m := m) (R := R) (c := c) (b := b) (f := f)
    (I := fun s W => I s ∧ W = ∅) (Q := fun s W => Q s ∧ W = ∅)
    (fun s W h hc => ⟨hexit s h.1 hc, h.2⟩) (by
      rintro s _ ⟨h, rfl⟩ hc
      obtain ⟨r, hdoes, hpassed⟩ := hpass s h hc
      refine ⟨∅, r, hdoes, ?_⟩
      cases r with
      | yield s' => exact ⟨⟨hpassed.1, Set.union_empty ∅⟩, hpassed.2⟩
      | done s' => exact ⟨hpassed, Set.union_empty ∅⟩) hn ⟨hI, rfl⟩
  exact ⟨s', hdoes.congr (by simpa using hW), hQ⟩

/-- The accesses a thread makes alone. -/
def Code.length (m : A → V) : Code A V ρ → Nat
  | .ret _ => 0
  | .load a k => (k (m a)).length m + 1
  | .store _ _ k => k.length m + 1
  | .starved => 0

theorem Does.ended {c : Code A V ρ} {W : Set (A × V)} {r : ρ} (h : Does m R c W r) (hc : c.length m = 0) :
    c = .ret r ∧ W = ∅ := by
  cases h with
  | ret r => exact ⟨rfl, rfl⟩
  | load => exact absurd hc (Nat.succ_ne_zero _)
  | store => exact absurd hc (Nat.succ_ne_zero _)

/-! ## Threads together -/

variable {ι : Type x}

/-- The memory, and what is left of each thread. -/
structure Pool (ι : Type x) (A : Type u) (V : Type v) (ρ : Type w) where
  mem : A → V
  code : ι → Code A V ρ

variable [DecidableEq ι] [DecidableEq A]

/-- The next access of thread `i`, if it has one. -/
def Pool.next (p : Pool ι A V ρ) (i : ι) : Pool ι A V ρ :=
  match p.code i with
  | .load a k => { p with code := Function.update p.code i (k (p.mem a)) }
  | .store a v k => { mem := Function.update p.mem a v, code := Function.update p.code i k }
  | .ret _ => p
  | .starved => p

/-- A run is a schedule: whose access comes next. -/
def pool (m : A → V) (code : ι → Code A V ρ) : Machine (Pool ι A V ρ) ι := ⟨⟨m, code⟩, Pool.next⟩

variable {code : ι → Code A V ρ} {W : ι → Set (A × V)} {r : ι → ρ}

/-- What has still to be done, and that the rest has been done. -/
structure Ongoing (m : A → V) (R : Set A) (code : ι → Code A V ρ) (W : ι → Set (A × V)) (r : ι → ρ)
    (xs : List ι) (p : Pool ι A V ρ) : Prop where
  does : ∀ i, ∃ W' ⊆ W i, Does m R (p.code i) W' (r i) ∧ ∀ a v, (a, v) ∈ W i → (a, v) ∈ W' ∨ p.mem a = v
  mem : ∀ a, p.mem a = m a ∨ ∃ i, (a, p.mem a) ∈ W i
  length : ∀ i, (p.code i).length m = (code i).length m - xs.count i

omit [DecidableEq A] in
/-- A thread makes its access, and the memory is changed by it or not. -/
theorem Ongoing.step {xs : List ι} {p : Pool ι A V ρ} (h : Ongoing m R code W r xs p) {i : ι} {k : Code A V ρ}
    {W' : Set (A × V)} {mem : A → V} (hW : W' ⊆ W i) (hk : Does m R k W' (r i))
    (hlength : (p.code i).length m = k.length m + 1)
    (hkept : ∀ j a v, (a, v) ∈ W j → p.mem a = v → mem a = v)
    (hmade : ∀ a v, (a, v) ∈ W i → (a, v) ∈ W' ∨ mem a = v)
    (hmem : ∀ a, mem a = m a ∨ ∃ i, (a, mem a) ∈ W i) :
    Ongoing m R code W r (xs ++ [i]) ⟨mem, Function.update p.code i k⟩ where
  does j := by
    by_cases hj : j = i
    · subst hj
      exact ⟨W', hW, by simpa only [Function.update_self] using hk, hmade⟩
    · obtain ⟨W'', hsub, hdoes, hdone⟩ := h.does j
      refine ⟨W'', hsub, by simpa only [Function.update_of_ne hj] using hdoes, fun a v hav => ?_⟩
      exact (hdone a v hav).imp id (hkept j a v hav)
  mem := hmem
  length j := by
    have hj := h.length j
    by_cases hji : j = i
    · subst hji
      simp only [Function.update_self, List.count_append, List.count_singleton_self]
      omega
    · simp only [Function.update_of_ne hji, List.count_append, List.count_singleton, beq_iff_eq,
        if_neg (Ne.symm hji), Nat.add_zero]
      exact hj

omit [DecidableEq A] in
/-- Cells that are read are as they were. -/
theorem Ongoing.read {xs : List ι} {p : Pool ι A V ρ} (h : Ongoing m R code W r xs p)
    (hread : ∀ i a v, (a, v) ∈ W i → a ∉ R) {a : A} (ha : a ∈ R) : p.mem a = m a := by
  rcases h.mem a with hmem | ⟨i, hi⟩
  · exact hmem
  · exact absurd ha (hread i a _ hi)

theorem Ongoing.next {xs : List ι} {p : Pool ι A V ρ} (h : Ongoing m R code W r xs p)
    (hread : ∀ i a v, (a, v) ∈ W i → a ∉ R)
    (hagree : ∀ i j a v v', (a, v) ∈ W i → (a, v') ∈ W j → v = v') (i : ι) :
    Ongoing m R code W r (xs ++ [i]) (p.next i) := by
  obtain ⟨W', hsub, hdoes, hdone⟩ := h.does i
  have hleft := h.length i
  unfold Pool.next
  generalize hc : p.code i = c at hdoes hleft
  cases hdoes with
  | ret =>
    -- a schedule may name a thread that has ended
    refine ⟨h.does, h.mem, fun j => ?_⟩
    by_cases hj : j = i
    · subst hj
      rw [hc, List.count_append, List.count_singleton_self]
      simp only [Code.length] at hleft ⊢
      omega
    · rw [h.length j, List.count_append, List.count_singleton, beq_false_of_ne (Ne.symm hj)]
      simp
  | load ha hk =>
    rw [← h.read hread ha] at hk
    refine h.step hsub hk ?_ (fun _ _ _ _ => id) hdone h.mem
    rw [hc, Code.length, h.read hread ha]
  | @store a v k W'' _ hk =>
    have hav : (a, v) ∈ W i := hsub (Set.mem_insert _ _)
    refine h.step (fun e he => hsub (Set.mem_insert_of_mem _ he)) hk (by rw [hc, Code.length]) ?_ ?_ ?_
    · intro j b w hbw hb
      by_cases hba : b = a
      · subst hba
        rw [Function.update_self]
        exact hagree i j b v w hav hbw
      · rwa [Function.update_of_ne hba]
    · intro b w hbw
      by_cases hba : b = a
      · subst hba
        exact Or.inr (by rw [Function.update_self]; exact hagree i i b v w hav hbw)
      · rw [Function.update_of_ne hba]
        refine (hdone b w hbw).imp_left fun hmem => ?_
        rcases Set.mem_insert_iff.mp hmem with heq | hmem
        · exact absurd (congrArg Prod.fst heq) hba
        · exact hmem
    · intro b
      by_cases hba : b = a
      · subst hba
        exact Or.inr ⟨i, by rwa [Function.update_self]⟩
      · rw [Function.update_of_ne hba]
        exact h.mem b

theorem ongoing (hdoes : ∀ i, Does m R (code i) (W i) (r i)) (hread : ∀ i a v, (a, v) ∈ W i → a ∉ R)
    (hagree : ∀ i j a v v', (a, v) ∈ W i → (a, v') ∈ W j → v = v') (xs : List ι) :
    Ongoing m R code W r xs ((pool m code).run xs) := by
  induction xs using List.reverseRecOn with
  | nil => exact ⟨fun i => ⟨W i, subset_rfl, hdoes i, fun _ _ => Or.inl⟩, fun _ => Or.inl rfl, fun _ => rfl⟩
  | append_singleton xs i ih =>
    rw [Machine.run_concat]
    exact ih.next hread hagree i

/-- The memory has what the threads are to write, and is otherwise as it was. -/
structure Written (m : A → V) (W : ι → Set (A × V)) (mem : A → V) : Prop where
  written : ∀ i a v, (a, v) ∈ W i → mem a = v
  frame : ∀ a, (∀ i v, (a, v) ∉ W i) → mem a = m a

/-- **Threads in any order.**  On the way every cell has its first value or one that is written to it; and
there are numbers such that, once each thread has had as many accesses, all have ended and everything is
written. -/
theorem threads_finish (hdoes : ∀ i, Does m R (code i) (W i) (r i)) (hread : ∀ i a v, (a, v) ∈ W i → a ∉ R)
    (hagree : ∀ i j a v v', (a, v) ∈ W i → (a, v') ∈ W j → v = v') :
    (∀ xs a, ((pool m code).run xs).mem a = m a ∨ ∃ i, (a, ((pool m code).run xs).mem a) ∈ W i) ∧
    ∃ n : ι → Nat, ∀ xs : List ι, (∀ i, n i ≤ xs.count i) →
      (∀ i, ((pool m code).run xs).code i = .ret (r i)) ∧ Written m W ((pool m code).run xs).mem := by
  refine ⟨fun xs => (ongoing hdoes hread hagree xs).mem, fun i => (code i).length m, fun xs hxs => ?_⟩
  have h := ongoing hdoes hread hagree xs
  have hend : ∀ i, ((pool m code).run xs).code i = .ret (r i) ∧
      ∀ a v, (a, v) ∈ W i → ((pool m code).run xs).mem a = v := by
    intro i
    obtain ⟨W', _, hrest, hdone⟩ := h.does i
    obtain ⟨hret, rfl⟩ := hrest.ended (by rw [h.length i]; exact Nat.sub_eq_zero_of_le (hxs i))
    exact ⟨hret, fun a v hav => (hdone a v hav).resolve_left (Set.notMem_empty _)⟩
  refine ⟨fun i => (hend i).1, fun i => (hend i).2, fun a ha => ?_⟩
  rcases h.mem a with hmem | ⟨i, hi⟩
  · exact hmem
  · exact absurd hi (ha i _)

end Threads
