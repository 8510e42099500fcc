import CachePool.Lib.Tally

/-!
# Drawing numbers and filing them

Parties draw consecutive numbers from a counter, and later append the number they hold to a common list.

* `Step` — a party draws, a party files what it has drawn, or nothing happens.
* `Lawful` — every number drawn so far is in one party's hands or filed, and below the counter.
* `Ordered` — the filed numbers ascend and are below those still in hand; `Step.ordered` keeps it as long as
  the party that files holds the smallest number in hand.
* `Inverted` — a larger number is filed before a smaller one; a party that files out of turn makes it so, and
  it stays so.
-/

set_option autoImplicit false

universe u

/-- The counter, the numbers in hand, and the list. -/
structure Tickets (ι : Type u) where
  next : Nat
  drawn : ι → Option Nat
  filed : List Nat

namespace Tickets

variable {ι : Type u} {T T' : Tickets ι}

/-- No other party holds a number as small as that of party `i`. -/
def InFront (T : Tickets ι) (i : ι) : Prop :=
  ∀ sn, T.drawn i = some sn → ∀ j, j ≠ i → ∀ sn', T.drawn j = some sn' → sn < sn'

/-- The filed numbers ascend, and every number in hand is above them. -/
structure Ordered (T : Tickets ι) : Prop where
  pairwise : T.filed.Pairwise (· < ·)
  below : ∀ sn ∈ T.filed, ∀ i sn', T.drawn i = some sn' → sn < sn'

/-- A number is filed, and one that is not above it is filed behind it or still in hand. -/
def Inverted (T : Tickets ι) : Prop :=
  ∃ sn sn', sn' ≤ sn ∧ (List.Sublist [sn, sn'] T.filed ∨ sn ∈ T.filed ∧ ∃ i, T.drawn i = some sn')

/-- With no number in hand, an inverted list is not in order. -/
theorem Inverted.not_pairwise (I : Inverted T) (hidle : ∀ i, T.drawn i = none) :
    ¬ T.filed.Pairwise (· < ·) := by
  intro hsorted
  obtain ⟨sn, sn', hle, hsub | ⟨_, i, hi⟩⟩ := I
  · have hlt := List.pairwise_iff_forall_sublist.mp hsorted hsub
    omega
  · rw [hidle i] at hi
    cases hi

/-! ## Steps -/

variable [DecidableEq ι]

/-- One step of the parties, and the party that files in it. -/
inductive Step (T T' : Tickets ι) : Option ι → Prop where
  | draw (i : ι) (hnone : T.drawn i = none) (hnext : T'.next = T.next + 1)
      (hdrawn : T'.drawn = Function.update T.drawn i (some T.next)) (hfiled : T'.filed = T.filed) :
      Step T T' none
  | file (i : ι) (sn : Nat) (hsn : T.drawn i = some sn) (hnext : T'.next = T.next)
      (hdrawn : T'.drawn = Function.update T.drawn i none) (hfiled : T'.filed = T.filed ++ [sn]) :
      Step T T' (some i)
  | stay (hnext : T'.next = T.next) (hdrawn : T'.drawn = T.drawn) (hfiled : T'.filed = T.filed) :
      Step T T' none

theorem drawn_update {f : ι → Option Nat} {i j : ι} {a : Option Nat} {sn : Nat}
    (h : Function.update f i a j = some sn) : (j = i ∧ a = some sn) ∨ (j ≠ i ∧ f j = some sn) := by
  by_cases hj : j = i
  · rw [hj, Function.update_self] at h
    exact Or.inl ⟨hj, h⟩
  · rw [Function.update_of_ne hj] at h
    exact Or.inr ⟨hj, h⟩

/-! ## What every step keeps -/

/-- **Where the numbers are.** -/
structure Lawful [Fintype ι] (T : Tickets ι) : Prop where
  filed_lt : ∀ sn ∈ T.filed, sn < T.next
  drawn_lt : ∀ i sn, T.drawn i = some sn → sn < T.next
  next_eq : T.next = T.filed.length + tally (fun d : Option Nat => d.toList.length) T.drawn

theorem Step.lawful [Fintype ι] {who : Option ι} (h : Step T T' who) (L : Lawful T) : Lawful T' := by
  obtain ⟨hfl, hdl, heq⟩ := L
  cases h with
  | draw i hnone hnext hdrawn hfiled =>
    refine ⟨?_, ?_, ?_⟩
    · rw [hfiled, hnext]
      intro sn hsn
      exact Nat.lt_succ_of_lt (hfl sn hsn)
    · rw [hdrawn, hnext]
      intro j sn hj
      rcases drawn_update hj with ⟨_, hnew⟩ | ⟨_, hold⟩
      · cases hnew
        exact Nat.lt_succ_self _
      · exact Nat.lt_succ_of_lt (hdl j sn hold)
    · have ht := tally_update (fun d : Option Nat => d.toList.length) T.drawn i (some T.next)
      rw [hnone] at ht
      simp only [Option.toList_none, Option.toList_some, List.length_nil, List.length_singleton] at ht
      rw [hdrawn, hfiled, hnext]
      omega
  | file i sn hsn hnext hdrawn hfiled =>
    refine ⟨?_, ?_, ?_⟩
    · rw [hfiled, hnext]
      intro sn' hmem
      rcases List.mem_append.mp hmem with hold | hnew
      · exact hfl sn' hold
      · rw [List.mem_singleton.mp hnew]
        exact hdl i sn hsn
    · rw [hdrawn, hnext]
      intro j sn' hj
      rcases drawn_update hj with ⟨_, hnew⟩ | ⟨_, hold⟩
      · cases hnew
      · exact hdl j sn' hold
    · have ht := tally_update (fun d : Option Nat => d.toList.length) T.drawn i none
      rw [hsn] at ht
      simp only [Option.toList_none, Option.toList_some, List.length_nil, List.length_singleton] at ht
      rw [hdrawn, hfiled, hnext, List.length_append, List.length_singleton]
      omega
  | stay hnext hdrawn hfiled =>
    refine ⟨?_, ?_, ?_⟩
    · rw [hfiled, hnext]
      exact hfl
    · rw [hdrawn, hnext]
      exact hdl
    · rw [hfiled, hdrawn, hnext]
      exact heq

/-! ## Filing in turn -/

/-- **Filing in turn keeps the list in order.** -/
theorem Step.ordered {who : Option ι} (h : Step T T' who) (hlt : ∀ sn ∈ T.filed, sn < T.next)
    (hturn : ∀ i, who = some i → T.InFront i) (O : Ordered T) : Ordered T' := by
  cases h with
  | draw i hnone hnext hdrawn hfiled =>
    refine ⟨by rw [hfiled]; exact O.pairwise, ?_⟩
    rw [hfiled, hdrawn]
    intro sn hsn j sn' hj
    rcases drawn_update hj with ⟨_, hnew⟩ | ⟨_, hold⟩
    · cases hnew
      exact hlt sn hsn
    · exact O.below sn hsn j sn' hold
  | file i sn hsn hnext hdrawn hfiled =>
    have hfront := hturn i rfl sn hsn
    refine ⟨?_, ?_⟩
    · rw [hfiled, List.pairwise_append]
      refine ⟨O.pairwise, List.pairwise_singleton _ _, ?_⟩
      intro a ha b hb
      rw [List.mem_singleton.mp hb]
      exact O.below a ha i sn hsn
    · rw [hfiled, hdrawn]
      intro a ha j sn' hj
      rcases drawn_update hj with ⟨_, hnew⟩ | ⟨hne, hold⟩
      · cases hnew
      · rcases List.mem_append.mp ha with hfiled' | hlast
        · exact O.below a hfiled' j sn' hold
        · rw [List.mem_singleton.mp hlast]
          exact hfront j hne sn' hold
  | stay hnext hdrawn hfiled =>
    refine ⟨by rw [hfiled]; exact O.pairwise, ?_⟩
    rw [hfiled, hdrawn]
    exact O.below

/-! ## Filing out of turn -/

/-- **An inversion stays.** -/
theorem Step.inverted {who : Option ι} (h : Step T T' who) (I : Inverted T) : Inverted T' := by
  obtain ⟨sn, sn', hle, hinv⟩ := I
  refine ⟨sn, sn', hle, ?_⟩
  cases h with
  | draw i hnone hnext hdrawn hfiled =>
    rw [hfiled, hdrawn]
    rcases hinv with hsub | ⟨hmem, j, hj⟩
    · exact Or.inl hsub
    · have hne : j ≠ i := by
        intro heq
        rw [heq, hnone] at hj
        cases hj
      exact Or.inr ⟨hmem, j, by rw [Function.update_of_ne hne]; exact hj⟩
  | file i sn'' hsn hnext hdrawn hfiled =>
    rw [hfiled, hdrawn]
    rcases hinv with hsub | ⟨hmem, j, hj⟩
    · exact Or.inl (hsub.trans (List.sublist_append_left _ _))
    · by_cases heq : j = i
      · rw [heq, hsn] at hj
        cases hj
        exact Or.inl ((List.singleton_sublist.mpr hmem).append (List.Sublist.refl [sn']))
      · exact Or.inr ⟨List.mem_append_left _ hmem, j, by rw [Function.update_of_ne heq]; exact hj⟩
  | stay hnext hdrawn hfiled =>
    rw [hfiled, hdrawn]
    exact hinv

/-- A party that files out of turn inverts the list. -/
theorem Step.inverted_of_file {i : ι} (h : Step T T' (some i)) (hnot : ¬ T.InFront i) : Inverted T' := by
  unfold InFront at hnot
  push Not at hnot
  obtain ⟨sn, hsn, j, hne, sn', hj, hle⟩ := hnot
  cases h with
  | file i sn₁ hsn₁ hnext hdrawn hfiled =>
    rw [hsn] at hsn₁
    cases hsn₁
    refine ⟨sn, sn', hle, Or.inr ⟨?_, j, ?_⟩⟩
    · simp [hfiled]
    · rw [hdrawn, Function.update_of_ne hne]
      exact hj

end Tickets
