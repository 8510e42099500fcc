import CachePool.Rlc.System

/-!
# The end of a transfer

`producer_done` is set by the first producer that runs out of packages, and a consumer leaves when it has
found the list empty and then the flag set.

* `Conserved` — where the packages are: with a producer, on the list, with a consumer, or on the sent list;
  `conserved_run` says so for every run.
* `LastLeaves` — the last consumer leaves an empty list and no package in a producer's hands.
* `transfer_complete_iff` — a run in which all cores have left is complete iff the last consumer left so.
* `transfer_incomplete` — one consumer, two producers and one package that stays on the list.
-/

set_option autoImplicit false

namespace CachePool

namespace Rlc

/-- How many of the parties carry package `k`. -/
def carrying {n : Nat} {α : Type} (carried : α → Option Nat) (k : Nat) (f : Fin n → α) : Nat :=
  tally (fun pc => (carried pc).toList.count k) f

theorem carrying_update {n : Nat} {α : Type} (carried : α → Option Nat) (k : Nat) (f : Fin n → α)
    (i : Fin n) (a : α) : carrying carried k (Function.update f i a) + (carried (f i)).toList.count k =
      carrying carried k f + (carried a).toList.count k :=
  tally_update _ f i a

theorem carrying_eq_zero {n : Nat} {α : Type} {carried : α → Option Nat} {f : Fin n → α}
    (h : ∀ i, carried (f i) = none) (k : Nat) : carrying carried k f = 0 :=
  tally_eq_zero_iff.mpr (fun i => by simp [h i])

/-- A party whose step changes nothing it carries leaves the count as it is. -/
theorem carrying_update_of_eq {n : Nat} {α : Type} (carried : α → Option Nat) {f : Fin n → α}
    {i : Fin n} {a : α} (h : carried a = carried (f i)) (k : Nat) :
    carrying carried k (Function.update f i a) = carrying carried k f := by
  have ht := carrying_update carried k f i a
  rw [h] at ht
  exact Nat.add_right_cancel ht

/-- A party that takes up a package. -/
theorem carrying_update_take {n : Nat} {α : Type} (carried : α → Option Nat) {f : Fin n → α}
    {i : Fin n} {a : α} {p : Nat} (h : carried (f i) = none) (ha : carried a = some p) (k : Nat) :
    carrying carried k (Function.update f i a) = carrying carried k f + [p].count k := by
  have ht := carrying_update carried k f i a
  rwa [h, ha, Option.toList_none, Option.toList_some, List.count_nil, Nat.add_zero] at ht

/-- A party that lays down a package. -/
theorem carrying_update_put {n : Nat} {α : Type} (carried : α → Option Nat) {f : Fin n → α}
    {i : Fin n} {a : α} {p : Nat} (h : carried (f i) = some p) (ha : carried a = none) (k : Nat) :
    carrying carried k (Function.update f i a) + [p].count k = carrying carried k f := by
  have ht := carrying_update carried k f i a
  rwa [h, ha, Option.toList_none, Option.toList_some, List.count_nil, Nat.add_zero] at ht

namespace Sys

variable {nc np : Nat} (cfg : Config) (s : Sys nc np)

/-- Every core has left its loop. -/
def AllLeft : Prop := (∀ i, s.consumers i = .left) ∧ ∀ j, s.producers j = .left

instance : Decidable s.AllLeft := inferInstanceAs (Decidable (_ ∧ _))

/-- Every package has been received, queued, popped, transmitted and appended to the sent list. -/
def Complete : Prop :=
  ∀ k < cfg.numPkgs, k ∈ s.received ∧ k ∈ s.queued ∧ k ∈ s.popped ∧ k ∈ s.transmitted.map Prod.fst ∧
    k ∈ s.appended

/-- Nothing is left to send: the list is empty and no producer holds a package. -/
def Emptied : Prop := s.list.nodes = [] ∧ ∀ j, (s.producers j).pkg = none

instance : Decidable s.Emptied := inferInstanceAs (Decidable (_ ∧ _))

/-- If this step is that of the last consumer leaving, nothing is left to send. -/
def LastLeaves (c : Core nc np) : Prop :=
  ∀ i, c = .consumer i → s.consumers i = .checkDone → s.producerDone = true →
    (∀ i', i' ≠ i → s.consumers i' = .left) → s.Emptied

instance (c : Core nc np) : Decidable (s.LastLeaves c) := by
  unfold LastLeaves
  infer_instance

/-- **Where the packages are.** -/
structure Conserved : Prop where
  received_eq : s.received = List.range s.pdcpPkdPtr
  ptr_le : s.pdcpPkdPtr ≤ cfg.numPkgs
  queued_eq : ∀ k, carrying ProducerPc.pkg k s.producers + s.queued.count k = s.received.count k
  popped_eq : ∀ k, (s.list.nodes.map Node.pkg).count k + s.popped.count k = s.queued.count k
  transmitted_eq : ∀ k, carrying ConsumerPc.untransmitted k s.consumers +
    (s.transmitted.map Prod.fst).count k = s.popped.count k
  appended_eq : ∀ k, carrying ConsumerPc.unappended k s.consumers + s.appended.count k =
    s.popped.count k
  /-- a producer that is past its loop has found no package -/
  exhausted : ∀ j, (s.producers j).past = true → s.pdcpPkdPtr = cfg.numPkgs
  exhausted_of_done : s.producerDone = true → s.pdcpPkdPtr = cfg.numPkgs
  done_of_left : ∀ i, s.consumers i = .left → s.producerDone = true

variable {cfg s} {t : Sys nc np}

theorem conserved_init : Conserved cfg (init : Sys nc np) where
  received_eq := rfl
  ptr_le := Nat.zero_le _
  queued_eq := carrying_eq_zero (fun _ => rfl)
  popped_eq := fun _ => rfl
  transmitted_eq := carrying_eq_zero (fun _ => rfl)
  appended_eq := carrying_eq_zero (fun _ => rfl)
  exhausted := fun _ h => nomatch h
  exhausted_of_done := fun h => nomatch h
  done_of_left := fun _ h => nomatch h

/-! ## Producers -/

theorem past_update {f : Fin np → ProducerPc} {j j' : Fin np} {a : ProducerPc}
    (h : (Function.update f j a j').past = true) : a.past = true ∨ (f j').past = true := by
  by_cases hj : j' = j
  · rw [hj, Function.update_self] at h
    exact Or.inl h
  · rw [Function.update_of_ne hj] at h
    exact Or.inr h

theorem Conserved.setProducer_exhausted (I : Conserved cfg s) {j : Fin np} {a : ProducerPc}
    (ha : a.past = true → s.pdcpPkdPtr = cfg.numPkgs) (j' : Fin np)
    (h : ((s.setProducer j a).producers j').past = true) : s.pdcpPkdPtr = cfg.numPkgs := by
  rcases past_update h with hnew | hold
  · exact ha hnew
  · exact I.exhausted j' hold

theorem Conserved.produces (I : Conserved cfg s) {j : Fin np} (h : Produces cfg s j t) :
    Conserved cfg t := by
  cases h with
  | receive hpc hlt ht =>
    subst ht
    have hin : ¬ s.pdcpPkdPtr = cfg.numPkgs := Nat.ne_of_lt hlt
    exact { I with
      received_eq := by simp [setProducer, I.received_eq, List.range_succ]
      ptr_le := hlt
      queued_eq := by
        intro k
        have htake := carrying_update_take ProducerPc.pkg (f := s.producers) (i := j)
          (a := .alloc s.pdcpPkdPtr) (by rw [hpc]; rfl) rfl k
        have hq := I.queued_eq k
        simp only [setProducer, List.count_append]
        omega
      exhausted := by
        intro j' hpast
        rcases past_update hpast with hnew | hold
        · cases hnew
        · exact absurd (I.exhausted j' hold) hin
      exhausted_of_done := fun hdone => absurd (I.exhausted_of_done hdone) hin }
  | exhaust hpc hge ht =>
    subst ht
    exact { I with
      queued_eq := by
        intro k
        simp only [setProducer]
        rw [carrying_update_of_eq ProducerPc.pkg (by rw [hpc]; rfl)]
        exact I.queued_eq k
      exhausted := I.setProducer_exhausted (fun _ => Nat.le_antisymm I.ptr_le hge) }
  | alloc pkg page mm hpc ht =>
    subst ht
    exact { I with
      queued_eq := by
        intro k
        simp only [setProducer]
        rw [carrying_update_of_eq ProducerPc.pkg (by rw [hpc]; rfl)]
        exact I.queued_eq k
      exhausted := by
        apply I.setProducer_exhausted
        intro hnew
        cases hnew }
  | queue node hpc ht =>
    subst ht
    exact { I with
      queued_eq := by
        intro k
        have hput := carrying_update_put ProducerPc.pkg (f := s.producers) (i := j) (a := .receive)
          (by rw [hpc]; rfl) rfl k
        have hq := I.queued_eq k
        simp only [setProducer, List.count_append]
        omega
      popped_eq := by
        intro k
        have hp := I.popped_eq k
        simp only [setProducer, listPushBack, List.map_append, List.map_cons, List.map_nil,
          List.count_append]
        omega
      exhausted := by
        apply I.setProducer_exhausted
        intro hnew
        cases hnew }
  | finish hpc ht =>
    subst ht
    have hpast : (s.producers j).past = true := by rw [hpc]; rfl
    exact { I with
      queued_eq := by
        intro k
        simp only [setProducer]
        rw [carrying_update_of_eq ProducerPc.pkg (by rw [hpc]; rfl)]
        exact I.queued_eq k
      exhausted := I.setProducer_exhausted (fun _ => I.exhausted j hpast)
      exhausted_of_done := fun _ => I.exhausted j hpast
      done_of_left := fun _ _ => rfl }
  | stay ht =>
    subst ht
    exact I

/-! ## Consumers -/

theorem left_update {f : Fin nc → ConsumerPc} {i i' : Fin nc} {a : ConsumerPc}
    (h : Function.update f i a i' = .left) : a = .left ∨ f i' = .left := by
  by_cases hi : i' = i
  · rw [hi, Function.update_self] at h
    exact Or.inl h
  · rw [Function.update_of_ne hi] at h
    exact Or.inr h

theorem Conserved.consumes_transmitted (I : Conserved cfg s) {i : Fin nc} (h : Consumes s i t)
    (k : Nat) : carrying ConsumerPc.untransmitted k t.consumers +
      (t.transmitted.map Prod.fst).count k = t.popped.count k := by
  have hx := I.transmitted_eq k
  cases h with
  | pop node hpc ht hlist hpopped htransmitted happended =>
    rw [ht, hpopped, htransmitted, List.count_append,
      carrying_update_take ConsumerPc.untransmitted (p := node.pkg) (by rw [hpc]; rfl) rfl]
    omega
  | transmit node sn hpc ht hlist hpopped htransmitted happended =>
    have hput := carrying_update_put ConsumerPc.untransmitted (f := s.consumers) (i := i)
      (a := .countPdu node) (by rw [hpc]; rfl) rfl k
    rw [ht, hpopped, htransmitted]
    simp only [List.map_append, List.map_cons, List.map_nil, List.count_append]
    omega
  | append node hpc ht hlist hpopped htransmitted happended =>
    rw [ht, hpopped, htransmitted, carrying_update_of_eq ConsumerPc.untransmitted (by rw [hpc]; rfl)]
    exact hx
  | leave hpc hdone ht =>
    subst ht
    simp only [setConsumer]
    rw [carrying_update_of_eq ConsumerPc.untransmitted (by rw [hpc]; rfl)]
    exact hx
  | work pc hunt huna hpc ht hlist hpopped htransmitted happended =>
    rw [ht, hpopped, htransmitted, carrying_update_of_eq ConsumerPc.untransmitted hunt]
    exact hx
  | stay hpc ht =>
    subst ht
    exact hx

theorem Conserved.consumes_appended (I : Conserved cfg s) {i : Fin nc} (h : Consumes s i t)
    (k : Nat) : carrying ConsumerPc.unappended k t.consumers + t.appended.count k =
      t.popped.count k := by
  have hx := I.appended_eq k
  cases h with
  | pop node hpc ht hlist hpopped htransmitted happended =>
    rw [ht, hpopped, happended, List.count_append,
      carrying_update_take ConsumerPc.unappended (p := node.pkg) (by rw [hpc]; rfl) rfl]
    omega
  | transmit node sn hpc ht hlist hpopped htransmitted happended =>
    rw [ht, hpopped, happended, carrying_update_of_eq ConsumerPc.unappended (by rw [hpc]; rfl)]
    exact hx
  | append node hpc ht hlist hpopped htransmitted happended =>
    have hput := carrying_update_put ConsumerPc.unappended (f := s.consumers) (i := i)
      (a := .checkSent) (by rw [hpc]; rfl) rfl k
    rw [ht, hpopped, happended, List.count_append]
    omega
  | leave hpc hdone ht =>
    subst ht
    simp only [setConsumer]
    rw [carrying_update_of_eq ConsumerPc.unappended (by rw [hpc]; rfl)]
    exact hx
  | work pc hunt huna hpc ht hlist hpopped htransmitted happended =>
    rw [ht, hpopped, happended, carrying_update_of_eq ConsumerPc.unappended huna]
    exact hx
  | stay hpc ht =>
    subst ht
    exact hx

/-- What is on the list and what has been popped make up the same packages as before. -/
theorem Consumes.list_popped {i : Fin nc} (h : Consumes s i t) (k : Nat) :
    (t.list.nodes.map Node.pkg).count k + t.popped.count k =
      (s.list.nodes.map Node.pkg).count k + s.popped.count k := by
  cases h with
  | pop node hpc ht hlist hpopped htransmitted happended =>
    rw [hlist, hpopped, List.map_cons, List.count_append, List.count_cons, List.count_cons,
      List.count_nil]
    omega
  | transmit node sn hpc ht hlist hpopped htransmitted happended => rw [hlist, hpopped]
  | append node hpc ht hlist hpopped htransmitted happended => rw [hlist, hpopped]
  | leave hpc hdone ht =>
    subst ht
    rfl
  | work pc hunt huna hpc ht hlist hpopped htransmitted happended => rw [hlist, hpopped]
  | stay hpc ht =>
    subst ht
    rfl

theorem Conserved.consumes_left (I : Conserved cfg s) {i : Fin nc} (h : Consumes s i t)
    (i' : Fin nc) (hleft : t.consumers i' = .left) : s.producerDone = true := by
  cases h with
  | pop node hpc ht hlist hpopped htransmitted happended =>
    rw [ht] at hleft
    rcases left_update hleft with hnew | hold
    · cases hnew
    · exact I.done_of_left i' hold
  | transmit node sn hpc ht hlist hpopped htransmitted happended =>
    rw [ht] at hleft
    rcases left_update hleft with hnew | hold
    · cases hnew
    · exact I.done_of_left i' hold
  | append node hpc ht hlist hpopped htransmitted happended =>
    rw [ht] at hleft
    rcases left_update hleft with hnew | hold
    · cases hnew
    · exact I.done_of_left i' hold
  | leave hpc hdone ht => exact hdone
  | work pc hunt huna hpc ht hlist hpopped htransmitted happended =>
    rw [ht] at hleft
    rcases left_update hleft with hnew | hold
    · exact absurd hnew hpc
    · exact I.done_of_left i' hold
  | stay hpc ht =>
    subst ht
    exact I.done_of_left i' hleft

theorem conserved_next (I : Conserved cfg s) (c : Core nc np) : Conserved cfg (s.next cfg c) := by
  cases c with
  | producer j => exact I.produces (stepProducer_cases cfg s j)
  | consumer i =>
    have hstep := stepConsumer_cases s i
    obtain ⟨hprod, hptr, hdone, hrecv, hqueued⟩ := stepConsumer_produced s i
    show Conserved cfg (s.stepConsumer i)
    constructor
    · rw [hrecv, hptr]
      exact I.received_eq
    · rw [hptr]
      exact I.ptr_le
    · rw [hprod, hqueued, hrecv]
      exact I.queued_eq
    · intro k
      rw [hstep.list_popped k, hqueued]
      exact I.popped_eq k
    · exact I.consumes_transmitted hstep
    · exact I.consumes_appended hstep
    · rw [hprod, hptr]
      exact I.exhausted
    · rw [hdone, hptr]
      exact I.exhausted_of_done
    · rw [hdone]
      exact I.consumes_left hstep

theorem conserved_run (cfg : Config) (xs : List (Core nc np)) :
    Conserved cfg ((machine nc np cfg).run xs) :=
  Machine.invariant_of_next (M := machine nc np cfg) conserved_init (fun _ c I => conserved_next I c) xs

/-! ## The last consumer -/

/-- Once all consumers have left, nothing is left to send. -/
def LeftEmptied (s : Sys nc np) : Prop := (∀ i, s.consumers i = .left) → s.Emptied

/-- All consumers have left, and package `k` is on the list or in a producer's hands. -/
def Stranded (k : Nat) (s : Sys nc np) : Prop :=
  (∀ i, s.consumers i = .left) ∧
    (k ∈ s.list.nodes.map Node.pkg ∨ ∃ j, (s.producers j).pkg = some k)

/-- With no package to receive and none in hand, a producer leaves the list as it is. -/
theorem Emptied.produces (E : s.Emptied) (hptr : s.pdcpPkdPtr = cfg.numPkgs) {j : Fin np}
    (h : Produces cfg s j t) : t.Emptied := by
  obtain ⟨hlist, hpkg⟩ := E
  have hset : ∀ a, ProducerPc.pkg a = none → ∀ j', (Function.update s.producers j a j').pkg = none := by
    intro a ha j'
    by_cases hj : j' = j
    · rw [hj, Function.update_self]
      exact ha
    · rw [Function.update_of_ne hj]
      exact hpkg j'
  cases h with
  | receive hpc hlt ht => omega
  | exhaust hpc hge ht =>
    subst ht
    exact ⟨hlist, hset .done rfl⟩
  | alloc pkg page mm hpc ht =>
    have hnone := hpkg j
    rw [hpc] at hnone
    cases hnone
  | queue node hpc ht =>
    have hnone := hpkg j
    rw [hpc] at hnone
    cases hnone
  | finish hpc ht =>
    subst ht
    exact ⟨hlist, hset .left rfl⟩
  | stay ht =>
    subst ht
    exact ⟨hlist, hpkg⟩

theorem leftEmptied_next (hnc : 0 < nc) (I : Conserved cfg s) (E : s.LeftEmptied) {c : Core nc np}
    (hc : s.LastLeaves c) : (s.next cfg c).LeftEmptied := by
  intro hleft
  cases c with
  | producer j =>
    have hcons : ∀ i, s.consumers i = .left := by
      intro i
      rw [← hleft i]
      exact (congrFun (stepProducer_consumers cfg s j) i).symm
    have hptr := I.exhausted_of_done (I.done_of_left ⟨0, hnc⟩ (hcons _))
    exact (E hcons).produces hptr (stepProducer_cases cfg s j)
  | consumer i =>
    have hi := hleft i
    change (s.stepConsumer i).consumers i = .left at hi
    change (s.stepConsumer i).Emptied
    cases stepConsumer_cases s i with
    | pop node hpc ht hlist hpopped htransmitted happended =>
      rw [ht, Function.update_self] at hi
      cases hi
    | transmit node sn hpc ht hlist hpopped htransmitted happended =>
      rw [ht, Function.update_self] at hi
      cases hi
    | append node hpc ht hlist hpopped htransmitted happended =>
      rw [ht, Function.update_self] at hi
      cases hi
    | leave hpc hdone ht =>
      rw [ht]
      refine hc i rfl hpc hdone ?_
      intro i' hne
      have hi' := hleft i'
      change (s.stepConsumer i).consumers i' = .left at hi'
      rw [ht] at hi'
      simp only [setConsumer] at hi'
      rwa [Function.update_of_ne hne] at hi'
    | work pc hunt huna hpc ht hlist hpopped htransmitted happended =>
      rw [ht, Function.update_self] at hi
      exact absurd hi hpc
    | stay hpc ht =>
      rw [ht]
      rw [show s.next cfg (.consumer i) = s from ht] at hleft
      exact E hleft

/-- A package that is stranded stays so. -/
theorem stranded_next {k : Nat} (S : s.Stranded k) (c : Core nc np) : (s.next cfg c).Stranded k := by
  obtain ⟨hleft, hk⟩ := S
  cases c with
  | consumer i =>
    rw [show s.next cfg (.consumer i) = s from stepConsumer_of_left (hleft i)]
    exact ⟨hleft, hk⟩
  | producer j =>
    refine ⟨fun i => ?_, ?_⟩
    · rw [← hleft i]
      exact congrFun (stepProducer_consumers cfg s j) i
    · change k ∈ (s.stepProducer cfg j).list.nodes.map Node.pkg ∨
        ∃ j', ((s.stepProducer cfg j).producers j').pkg = some k
      have hheld : ∀ a, (s.producers j).pkg = none ∨ ProducerPc.pkg a = (s.producers j).pkg →
          (∃ j', (s.producers j').pkg = some k) →
          ∃ j', (Function.update s.producers j a j').pkg = some k := by
        rintro a ha ⟨j', hj'⟩
        refine ⟨j', ?_⟩
        by_cases hj : j' = j
        · subst hj
          rw [Function.update_self]
          rcases ha with hnone | heq
          · rw [hnone] at hj'
            cases hj'
          · rw [heq, hj']
        · rwa [Function.update_of_ne hj]
      cases stepProducer_cases cfg s j with
      | receive hpc hlt ht =>
        rw [ht]
        exact hk.imp id (hheld _ (Or.inl (by rw [hpc]; rfl)))
      | exhaust hpc hge ht =>
        rw [ht]
        exact hk.imp id (hheld _ (Or.inl (by rw [hpc]; rfl)))
      | alloc pkg page mm hpc ht =>
        rw [ht]
        exact hk.imp id (hheld _ (Or.inr (by rw [hpc]; rfl)))
      | queue node hpc ht =>
        rw [ht]
        simp only [setProducer, listPushBack, List.map_append, List.map_cons, List.map_nil,
          List.mem_append, List.mem_singleton]
        rcases hk with hlist | ⟨j', hj'⟩
        · exact Or.inl (Or.inl hlist)
        · by_cases hj : j' = j
          · rw [hj, hpc] at hj'
            exact Or.inl (Or.inr (Option.some.inj hj').symm)
          · exact Or.inr ⟨j', by rwa [Function.update_of_ne hj]⟩
      | finish hpc ht =>
        rw [ht]
        exact hk.imp id (hheld _ (Or.inl (by rw [hpc]; rfl)))
      | stay ht =>
        rw [ht]
        exact hk

/-! ## Runs -/

theorem Conserved.carried (I : Conserved cfg s) (h : s.AllLeft) (k : Nat) :
    s.queued.count k = s.received.count k ∧ (s.transmitted.map Prod.fst).count k = s.popped.count k ∧
      s.appended.count k = s.popped.count k := by
  have hq := I.queued_eq k
  have ht := I.transmitted_eq k
  have ha := I.appended_eq k
  rw [carrying_eq_zero (fun j => by rw [h.2 j]; rfl)] at hq
  rw [carrying_eq_zero (fun i => by rw [h.1 i]; rfl)] at ht ha
  omega

/-- With an empty list at the end, every package has gone all the way. -/
theorem Conserved.complete_of_empty (I : Conserved cfg s) (h : s.AllLeft) (hlist : s.list.nodes = [])
    (hptr : s.pdcpPkdPtr = cfg.numPkgs) : s.Complete cfg := by
  intro k hk
  obtain ⟨hqueued, htransmitted, happended⟩ := I.carried h k
  have hreceived : 0 < s.received.count k := by
    rw [I.received_eq, hptr]
    exact List.count_pos_iff.mpr (List.mem_range.mpr hk)
  have hpopped := I.popped_eq k
  rw [hlist, List.map_nil, List.count_nil] at hpopped
  exact ⟨List.count_pos_iff.mp hreceived, List.count_pos_iff.mp (by omega),
    List.count_pos_iff.mp (by omega), List.count_pos_iff.mp (by omega),
    List.count_pos_iff.mp (by omega)⟩

/-- A package on the list has not been popped. -/
theorem Conserved.not_popped (I : Conserved cfg s) {k : Nat} (hk : k ∈ s.list.nodes.map Node.pkg) :
    k < cfg.numPkgs ∧ k ∉ s.popped := by
  have hpos := List.count_pos_iff.mpr hk
  have hpopped := I.popped_eq k
  have hqueued := I.queued_eq k
  have hone : s.received.count k ≤ 1 := by
    rw [I.received_eq]
    exact List.nodup_iff_count_le_one.mp List.nodup_range k
  have hmem : k ∈ s.received := List.count_pos_iff.mp (by omega)
  rw [I.received_eq, List.mem_range] at hmem
  refine ⟨Nat.lt_of_lt_of_le hmem I.ptr_le, ?_⟩
  apply List.count_eq_zero.mp
  omega

/-- A stranded package is not popped by the end of the run. -/
theorem not_complete_of_stranded (I : Conserved cfg s) {k : Nat} (S : s.Stranded k) (h : s.AllLeft) :
    ¬ s.Complete cfg := by
  intro hcomplete
  rcases S.2 with hlist | ⟨j, hj⟩
  · obtain ⟨hlt, hnot⟩ := I.not_popped hlist
    exact hnot (hcomplete k hlt).2.2.1
  · rw [h.2 j] at hj
    cases hj

/-- If the last consumer leaves something to send, a package is stranded. -/
theorem exists_stranded (cfg : Config) {i : Fin nc} (hpc : s.consumers i = .checkDone)
    (hdone : s.producerDone = true) (hothers : ∀ i', i' ≠ i → s.consumers i' = .left) (hnot : ¬ s.Emptied) :
    ∃ k, (s.next cfg (.consumer i)).Stranded k := by
  have hnext : s.next cfg (.consumer i) = s.setConsumer i .left := by
    show s.stepConsumer i = _
    unfold stepConsumer
    simp only [hpc, hdone, if_true]
  rw [hnext]
  have hleft : ∀ i', (s.setConsumer i .left).consumers i' = .left := by
    intro i'
    simp only [setConsumer]
    by_cases hi : i' = i
    · rw [hi, Function.update_self]
    · rw [Function.update_of_ne hi]
      exact hothers i' hi
  rcases Classical.not_and_iff_not_or_not.mp hnot with hlist | hheld
  · obtain ⟨node, hnode⟩ := List.exists_mem_of_ne_nil _ hlist
    exact ⟨node.pkg, hleft, Or.inl (List.mem_map_of_mem hnode)⟩
  · obtain ⟨j, hj⟩ := Classical.not_forall.mp hheld
    obtain ⟨k, hk⟩ := Option.ne_none_iff_exists'.mp hj
    exact ⟨k, hleft, Or.inr ⟨j, hk⟩⟩

/-- Without consumers nothing is popped. -/
theorem popped_nil (hnc : nc = 0) (xs : List (Core nc np)) :
    ((machine nc np cfg).run xs).popped = [] := by
  refine Machine.invariant_of_next (M := machine nc np cfg) (P := fun s => s.popped = []) rfl ?_ xs
  intro s c h
  cases c with
  | consumer i =>
    subst hnc
    exact i.elim0
  | producer j =>
    change (s.stepProducer cfg j).popped = []
    rwa [(stepProducer_consumed cfg s j).2.2.1]

/-- A transfer of packages that is complete has had consumers. -/
theorem consumer_of_complete (hpos : 0 < cfg.numPkgs) {xs : List (Core nc np)}
    (h : ((machine nc np cfg).run xs).Complete cfg) : 0 < nc := by
  apply Nat.pos_of_ne_zero
  intro hnc
  have hmem := (h 0 hpos).2.2.1
  rw [popped_nil hnc] at hmem
  cases hmem

/-- **The end of a transfer.**  For every number of producers, consumers and packages and every interleaving
in which all cores leave their loops: every package has been received, queued, popped, transmitted and
appended to the sent list iff there is no package, or there is a consumer and the last one left an empty list
and no package in a producer's hands. -/
theorem transfer_complete_iff (nc np : Nat) (cfg : Config) (xs : List (Core nc np))
    (h : ((machine nc np cfg).run xs).AllLeft) :
    ((machine nc np cfg).run xs).Complete cfg ↔
      cfg.numPkgs = 0 ∨ 0 < nc ∧ (machine nc np cfg).Meets LastLeaves xs := by
  constructor
  · intro hcomplete
    rcases Nat.eq_zero_or_pos cfg.numPkgs with h0 | hpos
    · exact Or.inl h0
    · right
      refine ⟨consumer_of_complete hpos hcomplete, ?_⟩
      · intro pre c post heq i hc hpc hdone hothers
        refine Classical.byContradiction fun hnot => ?_
        obtain ⟨k, hk⟩ := exists_stranded cfg hpc hdone hothers hnot
        have hend : ((machine nc np cfg).run xs).Stranded k := by
          rw [heq, hc, ← List.singleton_append, ← List.append_assoc]
          apply Machine.kept_after (P := Stranded k) (fun s c S => stranded_next S c)
          rw [Machine.run_concat]
          exact hk
        exact not_complete_of_stranded (conserved_run cfg xs) hend h hcomplete
  · rintro (h0 | ⟨hnc, hmeets⟩)
    · intro k hk
      omega
    · have I := conserved_run cfg xs
      have E : ((machine nc np cfg).run xs).LeftEmptied :=
        Machine.invariant_upon (P := LeftEmptied) (conserved_run cfg) (fun hleft => nomatch hleft ⟨0, hnc⟩)
          (fun s c I E hc => leftEmptied_next hnc I E hc) xs hmeets
      have hptr := I.exhausted_of_done (I.done_of_left ⟨0, hnc⟩ (h.1 _))
      exact I.complete_of_empty h (E h.1).1 hptr

/-- One package of 100 bytes. -/
def onePkg : Config := ⟨1, fun _ => 100⟩

/-- The producer takes its five steps, then the consumer its nine. -/
def producerFirst : List (Core 1 1) :=
  List.replicate 5 (.producer 0) ++ List.replicate 9 (.consumer 0)

/-- The consumer leaves after the producer has queued its package and the consumer has sent it. -/
theorem transfer_complete_producer_first : ((machine 1 1 onePkg).run producerFirst).Complete onePkg :=
  (transfer_complete_iff 1 1 onePkg producerFirst (by decide)).mpr
    (Or.inr ⟨Nat.one_pos, by decide⟩)

/-- The second producer finds no package and sets the flag while the first one holds the package; the consumer
finds the list empty and leaves. -/
def flagFirst : List (Core 1 2) :=
  .producer 0 :: List.replicate 3 (.producer 1) ++ List.replicate 2 (.consumer 0) ++
    List.replicate 4 (.producer 0)

theorem transfer_incomplete : ((machine 1 2 onePkg).run flagFirst).AllLeft ∧
    ¬ ((machine 1 2 onePkg).run flagFirst).Complete onePkg := by
  refine ⟨by decide, fun h => ?_⟩
  have hpopped := (h 0 Nat.one_pos).2.2.1
  revert hpopped
  decide

end Sys

end Rlc

end CachePool
