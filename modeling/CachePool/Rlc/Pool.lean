import CachePool.Rlc.Sequence

/-!
# The memory pool

`mm_alloc` hands out fresh pages, then freed ones; pages are freed in the acknowledge step only, which needs
more PDUs on the sent list than the pool has pages.

* `PoolKept` — no page is ever freed, and every package that is not waiting for a page has had one.
* `DeadEnd` — packages remain, nothing is on the list to send, and `mm_alloc` returns NULL, now and in every
  continuation.
* `Doomed` — the flag is set and all consumers are past finding the list empty, while something is left to
  send.
* `dead_end_iff` — every run can be continued until all packages are sent iff the packages are at most as many
  as the pages and the consumers are not `Doomed`.
* `dead_end_reachable` — with more packages than pages there is a dead end.
-/

set_option autoImplicit false

namespace CachePool

namespace Rlc

/-- The producer has a package and no page for it. -/
def ProducerPc.waiting : ProducerPc → Nat
  | .alloc _ => 1
  | _ => 0

/-- The consumer is past finding the list empty. -/
def ConsumerPc.leaving : ConsumerPc → Bool
  | .checkDone => true
  | .left => true
  | _ => false

/-- Steps a producer has before it, up to the next package. -/
def ProducerPc.weight : ProducerPc → Nat
  | .receive => 2
  | .alloc _ => 11
  | .push _ => 10
  | .done => 1
  | .left => 0

/-- Steps a consumer has before it, up to the next PDU. -/
def ConsumerPc.weight : ConsumerPc → Nat
  | .pop => 0
  | .checkDone => 1
  | .drawSn _ => 6
  | .move _ _ => 5
  | .countPdu _ => 4
  | .countByte _ => 3
  | .push _ => 2
  | .checkSent => 1
  | _ => 0

namespace Sys

variable {nc np : Nat} {cfg : Config} {s t : Sys nc np}

/-! ## Pages and packages -/

/-- **No page is freed**, and every page is that of a package received and not waiting. -/
structure PoolKept (s : Sys nc np) : Prop where
  freeList_nil : s.mm.freeList = []
  offset_eq : s.mm.allocOffset + pageSize * tally ProducerPc.waiting s.producers = pageSize * s.pdcpPkdPtr
  sent_eq : s.sentList.nodes.map Node.pkg = s.appended

theorem poolKept_init : PoolKept (init : Sys nc np) where
  freeList_nil := rfl
  offset_eq := by
    have hzero : tally ProducerPc.waiting (init : Sys nc np).producers = 0 :=
      tally_eq_zero_iff.mpr (fun _ => rfl)
    rw [hzero]
    rfl
  sent_eq := rfl

theorem waiting_update {f : Fin np → ProducerPc} {j : Fin np} {a : ProducerPc} :
    tally ProducerPc.waiting (Function.update f j a) + (f j).waiting =
      tally ProducerPc.waiting f + a.waiting :=
  tally_update _ f j a

theorem PoolKept.stepProducer (K : PoolKept s) (cfg : Config) (j : Fin np) :
    PoolKept (s.stepProducer cfg j) := by
  have hoff := K.offset_eq
  unfold Sys.stepProducer
  split
  · rename_i hpc
    split
    · have hw := waiting_update (f := s.producers) (j := j) (a := .alloc s.pdcpPkdPtr)
      rw [hpc] at hw
      refine ⟨K.freeList_nil, ?_, K.sent_eq⟩
      simp only [setProducer, ProducerPc.waiting, pageSize] at hw hoff ⊢
      omega
    · have hw := waiting_update (f := s.producers) (j := j) (a := .done)
      rw [hpc] at hw
      refine ⟨K.freeList_nil, ?_, K.sent_eq⟩
      simp only [setProducer, ProducerPc.waiting, pageSize] at hw hoff ⊢
      omega
  · rename_i pkg hpc
    split
    · rename_i page mm hmm
      have hw := waiting_update (f := s.producers) (j := j) (a := .push ⟨page, pkg, cfg.pkgLength pkg⟩)
      rw [hpc] at hw
      unfold mmAlloc at hmm
      rw [K.freeList_nil] at hmm
      split at hmm
      · cases hmm
        refine ⟨rfl, ?_, K.sent_eq⟩
        simp only [setProducer, ProducerPc.waiting, pageSize] at hw hoff ⊢
        omega
      · cases hmm
    · exact K
  · rename_i node hpc
    have hw := waiting_update (f := s.producers) (j := j) (a := .receive)
    rw [hpc] at hw
    refine ⟨K.freeList_nil, ?_, K.sent_eq⟩
    simp only [setProducer, ProducerPc.waiting, pageSize] at hw hoff ⊢
    omega
  · rename_i hpc
    have hw := waiting_update (f := s.producers) (j := j) (a := .left)
    rw [hpc] at hw
    refine ⟨K.freeList_nil, ?_, K.sent_eq⟩
    simp only [setProducer, ProducerPc.waiting, pageSize] at hw hoff ⊢
    omega
  · exact K

/-- What a step of consumer `i` that does not acknowledge does: it moves one step on, takes the first node of
the list, or puts its node on the sent list. -/
inductive Advances (s : Sys nc np) (i : Fin nc) (t : Sys nc np) : Prop where
  | pop (node : Node) (rest : List Node) (hpc : s.consumers i = .pop) (hnodes : s.list.nodes = node :: rest)
      (ht : t.consumers = Function.update s.consumers i (.drawSn node)) (hlist : t.list.nodes = rest)
      (hmm : t.mm = s.mm) (hsent : t.sentList = s.sentList) (happ : t.appended = s.appended)
  | empty (hpc : s.consumers i = .pop) (hnodes : s.list.nodes = []) (ht : t = s.setConsumer i .checkDone)
  | check (hpc : s.consumers i = .checkDone)
      (ht : t = s.setConsumer i (if s.producerDone then .left else .pop))
  | append (node : Node) (hpc : s.consumers i = .push node)
      (ht : t.consumers = Function.update s.consumers i .checkSent) (hlist : t.list = s.list)
      (hmm : t.mm = s.mm) (hsent : t.sentList = listPushBack s.sentList node)
      (happ : t.appended = s.appended ++ [node.pkg])
  | work (pc : ConsumerPc) (hbusy : (s.consumers i).idle = false) (hleaving : pc.leaving = false)
      (hweight : pc.weight < (s.consumers i).weight)
      (ht : t.consumers = Function.update s.consumers i pc) (hlist : t.list = s.list)
      (hmm : t.mm = s.mm) (hsent : t.sentList = s.sentList) (happ : t.appended = s.appended)
  | stay (hpc : s.consumers i = .left) (ht : t = s)

theorem stepConsumer_advances (N : NeverAcknowledges s) (O : s.Owned) (i : Fin nc) :
    Advances s i (s.stepConsumer i) := by
  have hlen := O.sent_length
  have hsdu := N.sduNum_eq
  have hack := N.not_acking i
  unfold stepConsumer
  split
  · rename_i hpc
    unfold listPopFront
    cases hnodes : s.list.nodes with
    | nil => exact .empty hpc hnodes rfl
    | cons node rest => exact .pop node rest hpc hnodes rfl rfl rfl rfl rfl
  · rename_i hpc
    exact .check hpc rfl
  · rename_i node hpc
    exact .work (.move node s.vtNext) (by rw [hpc]; rfl) rfl (by rw [hpc]; exact Nat.lt_succ_self _)
      rfl rfl rfl rfl rfl
  · rename_i node sn hpc
    exact .work (.countPdu node) (by rw [hpc]; rfl) rfl (by rw [hpc]; exact Nat.lt_succ_self _)
      rfl rfl rfl rfl rfl
  · rename_i node hpc
    exact .work (.countByte node) (by rw [hpc]; rfl) rfl (by rw [hpc]; exact Nat.lt_succ_self _)
      rfl rfl rfl rfl rfl
  · rename_i node hpc
    exact .work (.push node) (by rw [hpc]; rfl) rfl (by rw [hpc]; exact Nat.lt_succ_self _)
      rfl rfl rfl rfl rfl
  · rename_i node hpc
    exact .append node hpc rfl rfl rfl rfl rfl
  · rename_i hpc
    split
    · omega
    · exact .work .pop (by rw [hpc]; rfl) rfl (by rw [hpc]; exact Nat.lt_succ_self _) rfl rfl rfl rfl rfl
  · rename_i hpc
    rw [hpc] at hack
    cases hack
  · rename_i k ackSn hpc
    rw [hpc] at hack
    cases hack
  · rename_i k ackSn node hpc
    rw [hpc] at hack
    cases hack
  · rename_i hpc
    exact .stay hpc rfl

theorem PoolKept.advances (K : PoolKept s) {i : Fin nc} (h : Advances s i t)
    (hprod : t.producers = s.producers) (hptr : t.pdcpPkdPtr = s.pdcpPkdPtr) : PoolKept t := by
  obtain ⟨hfree, hoff, hsame⟩ := K
  cases h with
  | pop node rest hpc hnodes ht hlist hmm hsent happ =>
    exact ⟨by rw [hmm]; exact hfree, by rw [hmm, hprod, hptr]; exact hoff, by rw [hsent, happ]; exact hsame⟩
  | empty hpc hnodes ht => rw [ht]; exact ⟨hfree, hoff, hsame⟩
  | check hpc ht => rw [ht]; exact ⟨hfree, hoff, hsame⟩
  | append node hpc ht hlist hmm hsent happ =>
    refine ⟨by rw [hmm]; exact hfree, by rw [hmm, hprod, hptr]; exact hoff, ?_⟩
    rw [hsent, happ, listPushBack, List.map_append, hsame, List.map_singleton]
  | work pc hbusy hleaving hweight ht hlist hmm hsent happ =>
    exact ⟨by rw [hmm]; exact hfree, by rw [hmm, hprod, hptr]; exact hoff, by rw [hsent, happ]; exact hsame⟩
  | stay hpc ht => rw [ht]; exact ⟨hfree, hoff, hsame⟩

theorem poolKept_run (cfg : Config) (xs : List (Core nc np)) : PoolKept ((machine nc np cfg).run xs) := by
  refine Machine.invariant_upon (M := machine nc np cfg) (C := fun _ _ => True) (sending_run cfg)
    poolKept_init ?_ xs (fun _ _ _ _ => trivial)
  intro s c S K _
  cases c with
  | producer j => exact K.stepProducer cfg j
  | consumer i =>
    obtain ⟨hprod, hptr, _⟩ := stepConsumer_produced s i
    exact K.advances (stepConsumer_advances S.never S.owned i) hprod hptr

/-! ## Dead ends -/

/-- Packages remain to be received or queued. -/
def Remaining (cfg : Config) (s : Sys nc np) : Prop :=
  s.pdcpPkdPtr < cfg.numPkgs ∨ ∃ j pkg, (s.producers j).pkg = some pkg

/-- From the end of this run on, packages remain, the list to send is empty, and `mm_alloc` returns NULL. -/
def DeadEnd (cfg : Config) (xs : List (Core nc np)) : Prop :=
  ∀ ys, ((machine nc np cfg).run (xs ++ ys)).Remaining cfg ∧
    ((machine nc np cfg).run (xs ++ ys)).list.nodes = [] ∧
    (mmAlloc ((machine nc np cfg).run (xs ++ ys)).mm).1 = none

/-- Every consumer has found the list empty and will find the flag set, or has, while something is left to
send. -/
def Doomed (s : Sys nc np) : Prop :=
  s.producerDone = true ∧ (∀ i, (s.consumers i).leaving = true) ∧ ¬ s.Emptied

instance : Decidable s.Doomed := inferInstanceAs (Decidable (_ ∧ _))

/-- A producer that waits for a page gets one while the packages received are within the pool. -/
theorem PoolKept.mmAlloc_eq (K : PoolKept s) (hptr : s.pdcpPkdPtr ≤ 1024) {j : Fin np} {pkg : Nat}
    (hpc : s.producers j = .alloc pkg) :
    mmAlloc s.mm = (some s.mm.allocOffset, { s.mm with allocOffset := s.mm.allocOffset + pageSize }) := by
  have hle := le_tally ProducerPc.waiting s.producers j
  have hoff := K.offset_eq
  rw [hpc] at hle
  have hfit : s.mm.allocOffset + pageSize ≤ bufferSize := by
    simp only [ProducerPc.waiting] at hle
    unfold bufferSize pageSize at *
    omega
  unfold mmAlloc
  exact if_pos hfit

/-- In a complete state every page of a package is on the sent list. -/
theorem PoolKept.numPkgs_le (K : PoolKept s) (O : s.Owned) (h : s.Complete cfg) : cfg.numPkgs ≤ 1024 := by
  have hsub : List.range cfg.numPkgs ⊆ s.appended := fun k hk => (h k (List.mem_range.mp hk)).2.2.2.2
  have hle := (List.nodup_range.subperm hsub).length_le
  have hlen := congrArg List.length K.sent_eq
  have hsent := O.sent_length
  rw [List.length_range] at hle
  rw [List.length_map] at hlen
  omega

/-- Without producers nothing is received. -/
theorem received_nil (hnp : np = 0) (cfg : Config) (xs : List (Core nc np)) :
    ((machine nc np cfg).run xs).received = [] := by
  refine Machine.invariant_of_next (M := machine nc np cfg) (P := fun s => s.received = []) rfl ?_ xs
  intro s c h
  cases c with
  | producer j =>
    subst hnp
    exact j.elim0
  | consumer i =>
    show (s.stepConsumer i).received = []
    rw [(stepConsumer_produced s i).2.2.2.1]
    exact h

/-! ## Doomed states -/

/-- Nothing is left to send iff everything received has been popped. -/
theorem Conserved.emptied_iff (I : Conserved cfg s) : s.Emptied ↔ ∀ k ∈ s.received, k ∈ s.popped := by
  constructor
  · rintro ⟨hlist, hpkg⟩ k hk
    have hqueued := I.queued_eq k
    have hpopped := I.popped_eq k
    have hpos := List.count_pos_iff.mpr hk
    rw [carrying_eq_zero hpkg] at hqueued
    rw [hlist, List.map_nil, List.count_nil] at hpopped
    exact List.count_pos_iff.mp (by omega)
  · intro hall
    have hcount : ∀ k,
        carrying ProducerPc.pkg k s.producers = 0 ∧ (s.list.nodes.map Node.pkg).count k = 0 := by
      intro k
      have hqueued := I.queued_eq k
      have hpopped := I.popped_eq k
      have hone := I.received_count k
      rcases Nat.eq_zero_or_pos (s.received.count k) with hzero | hpos
      · omega
      · have hmem := List.count_pos_iff.mpr (hall k (List.count_pos_iff.mp hpos))
        omega
    refine ⟨?_, fun j => ?_⟩
    · cases hnodes : s.list.nodes with
      | nil => rfl
      | cons node rest =>
        have hzero := (hcount node.pkg).2
        rw [hnodes, List.map_cons, List.count_cons_self] at hzero
        cases hzero
    · cases hpkg : (s.producers j).pkg with
      | none => rfl
      | some k =>
        have hpos := carrying_pos hpkg
        have hzero := (hcount k).1
        omega

/-- A doomed state stays so: nobody takes what is left. -/
theorem Doomed.next (D : s.Doomed) (I : Conserved cfg s) (c : Core nc np) : (s.next cfg c).Doomed := by
  obtain ⟨hdone, hleaving, hnot⟩ := D
  have hsame : (s.next cfg c).producerDone = true ∧ (∀ i, ((s.next cfg c).consumers i).leaving = true) ∧
      (s.next cfg c).popped = s.popped ∧ ∃ more, (s.next cfg c).received = s.received ++ more := by
    cases c with
    | producer j =>
      rw [Sys.next, stepProducer_consumers]
      cases stepProducer_cases cfg s j with
      | receive hpc hlt ht => rw [ht]; exact ⟨hdone, hleaving, rfl, _, rfl⟩
      | exhaust hpc hge ht => rw [ht]; exact ⟨hdone, hleaving, rfl, [], (List.append_nil _).symm⟩
      | alloc pkg page mm hpc ht => rw [ht]; exact ⟨hdone, hleaving, rfl, [], (List.append_nil _).symm⟩
      | queue node hpc ht => rw [ht]; exact ⟨hdone, hleaving, rfl, [], (List.append_nil _).symm⟩
      | finish hpc ht => rw [ht]; exact ⟨rfl, hleaving, rfl, [], (List.append_nil _).symm⟩
      | stay ht => rw [ht]; exact ⟨hdone, hleaving, rfl, [], (List.append_nil _).symm⟩
    | consumer i =>
      have hpc := hleaving i
      have hleave : s.stepConsumer i = s.setConsumer i .left ∨ s.stepConsumer i = s := by
        unfold stepConsumer
        cases hi : s.consumers i with
        | checkDone => exact Or.inl (by simp [hdone])
        | left => exact Or.inr rfl
        | pop | drawSn _ | move _ _ | countPdu _ | countByte _ | push _ | checkSent | loadAck
        | ackLoop _ _ | free _ _ _ =>
          rw [hi] at hpc
          cases hpc
      rw [Sys.next]
      rcases hleave with hstep | hstep
      · rw [hstep]
        refine ⟨hdone, fun i' => ?_, rfl, [], (List.append_nil _).symm⟩
        show (Function.update s.consumers i .left i').leaving = true
        by_cases hi : i' = i
        · rw [hi, Function.update_self]
          rfl
        · rw [Function.update_of_ne hi]
          exact hleaving i'
      · rw [hstep]
        exact ⟨hdone, hleaving, rfl, [], (List.append_nil _).symm⟩
  obtain ⟨hdone', hleaving', hpopped, more, hreceived⟩ := hsame
  refine ⟨hdone', hleaving', fun E => hnot ?_⟩
  rw [I.emptied_iff]
  intro k hk
  have hpop := (conserved_next I c).emptied_iff.mp E k (by rw [hreceived]; exact List.mem_append_left _ hk)
  rwa [hpopped] at hpop

theorem Doomed.not_complete (D : s.Doomed) (I : Conserved cfg s) : ¬ s.Complete cfg := by
  intro h
  refine D.2.2 (I.emptied_iff.mpr fun k hk => ?_)
  rw [I.received_eq, List.mem_range] at hk
  exact (h k (Nat.lt_of_lt_of_le hk I.ptr_le)).2.2.1

theorem doomed_after (cfg : Config) {pre : List (Core nc np)} (h : ((machine nc np cfg).run pre).Doomed)
    (post : List (Core nc np)) : ((machine nc np cfg).run (pre ++ post)).Doomed := by
  induction post using List.reverseRecOn with
  | nil => rwa [List.append_nil]
  | append_singleton post c ih =>
    rw [← List.append_assoc, Machine.run_concat]
    exact ih.next (conserved_run cfg _) c

/-! ## Progress -/

/-- The work left. -/
def work (cfg : Config) (s : Sys nc np) : Nat :=
  tally ProducerPc.weight s.producers + tally ConsumerPc.weight s.consumers + 7 * s.list.nodes.length +
    10 * (cfg.numPkgs - s.pdcpPkdPtr)

theorem not_doomed_of_not_leaving {i : Fin nc} (h : (s.consumers i).leaving = false) : ¬ s.Doomed := by
  intro D
  have hi := D.2.1 i
  rw [h] at hi
  cases hi

/-- A producer that has not left brings the work down. -/
theorem work_stepProducer (K : PoolKept s) (I : Conserved cfg s) (hle : cfg.numPkgs ≤ 1024) {j : Fin np}
    (hpc : s.producers j ≠ .left) : (s.stepProducer cfg j).work cfg < s.work cfg := by
  have hupd : ∀ a, tally ProducerPc.weight (Function.update s.producers j a) + (s.producers j).weight =
      tally ProducerPc.weight s.producers + a.weight := fun a => tally_update _ _ _ _
  have hptr := I.ptr_le
  unfold stepProducer
  split
  · rename_i hj
    split
    · rename_i hlt
      have hw := hupd (.alloc s.pdcpPkdPtr)
      simp only [hj, ProducerPc.weight] at hw
      simp only [work, setProducer]
      omega
    · have hw := hupd .done
      simp only [hj, ProducerPc.weight] at hw
      simp only [work, setProducer]
      omega
  · rename_i pkg hj
    rw [K.mmAlloc_eq (Nat.le_trans hptr hle) hj]
    have hw := hupd (.push ⟨s.mm.allocOffset, pkg, cfg.pkgLength pkg⟩)
    simp only [hj, ProducerPc.weight] at hw
    simp only [work, setProducer]
    omega
  · rename_i node hj
    have hw := hupd .receive
    simp only [hj, ProducerPc.weight] at hw
    simp only [work, setProducer, listPushBack, List.length_append, List.length_singleton]
    omega
  · rename_i hj
    have hw := hupd .left
    simp only [hj, ProducerPc.weight] at hw
    simp only [work, setProducer]
    omega
  · rename_i hj
    exact absurd hj hpc

/-- A consumer that is under way, that finds the list not empty, or that goes back to the list brings the work
down. -/
theorem work_stepConsumer (S : Sending cfg s) {i : Fin nc}
    (h : (s.consumers i).idle = false ∨ (s.consumers i = .pop ∧ s.list.nodes ≠ []) ∨
      (s.consumers i = .checkDone ∧ s.producerDone = false)) :
    (s.stepConsumer i).work cfg < s.work cfg ∧ ((s.stepConsumer i).consumers i).leaving = false := by
  have hupd : ∀ a, tally ConsumerPc.weight (Function.update s.consumers i a) + (s.consumers i).weight =
      tally ConsumerPc.weight s.consumers + a.weight := fun a => tally_update _ _ _ _
  obtain ⟨hprod, hptr, _⟩ := stepConsumer_produced s i
  unfold work
  rw [hprod, hptr]
  cases stepConsumer_advances S.never S.owned i with
  | pop node rest hpc hnodes ht hlist hmm hsent happ =>
    have hw := hupd (.drawSn node)
    simp only [hpc, ConsumerPc.weight] at hw
    rw [ht, hlist, hnodes, List.length_cons, Function.update_self]
    exact ⟨by omega, rfl⟩
  | empty hpc hnodes ht =>
    rw [hpc] at h
    rcases h with hbusy | ⟨_, hne⟩ | ⟨hcheck, _⟩
    · cases hbusy
    · exact absurd hnodes hne
    · cases hcheck
  | check hpc ht =>
    rw [hpc] at h
    rcases h with hbusy | ⟨hpop, _⟩ | ⟨_, hdone⟩
    · cases hbusy
    · cases hpop
    · have hw := hupd .pop
      simp only [hpc, ConsumerPc.weight] at hw
      rw [ht, hdone]
      simp only [setConsumer, Function.update_self, Bool.false_eq_true, if_false]
      exact ⟨by omega, rfl⟩
  | append node hpc ht hlist hmm hsent happ =>
    have hw := hupd .checkSent
    simp only [hpc, ConsumerPc.weight] at hw
    rw [ht, hlist, Function.update_self]
    exact ⟨by omega, rfl⟩
  | work pc hbusy hleaving hweight ht hlist hmm hsent happ =>
    have hw := hupd pc
    rw [ht, hlist, Function.update_self]
    exact ⟨by omega, hleaving⟩
  | stay hpc ht =>
    rw [hpc] at h
    rcases h with hbusy | ⟨hpop, _⟩ | ⟨hcheck, _⟩
    · cases hbusy
    · cases hpop
    · cases hcheck

/-- With every consumer idle and nothing left to receive or send, all packages have gone all the way. -/
theorem Conserved.complete_of_idle (I : Conserved cfg s) (hidle : s.Quiescent) (E : s.Emptied)
    (hptr : s.pdcpPkdPtr = cfg.numPkgs) : s.Complete cfg := by
  have hcarried : ∀ i, (s.consumers i).untransmitted = none ∧ (s.consumers i).unappended = none := by
    intro i
    have hi := hidle i
    cases hpc : s.consumers i with
    | pop | checkDone | left => exact ⟨rfl, rfl⟩
    | drawSn _ | move _ _ | countPdu _ | countByte _ | push _ | checkSent | loadAck | ackLoop _ _
    | free _ _ _ =>
      rw [hpc] at hi
      cases hi
  intro k hk
  have hreceived : k ∈ s.received := by
    rw [I.received_eq, hptr]
    exact List.mem_range.mpr hk
  have hpopped := I.emptied_iff.mp E k hreceived
  have hpos := List.count_pos_iff.mpr hpopped
  have hqueued := I.popped_eq k
  have htransmitted := I.transmitted_eq k
  have happended := I.appended_eq k
  rw [carrying_eq_zero (fun i => (hcarried i).1)] at htransmitted
  rw [carrying_eq_zero (fun i => (hcarried i).2)] at happended
  exact ⟨hreceived, List.count_pos_iff.mp (by omega), hpopped, List.count_pos_iff.mp (by omega),
    List.count_pos_iff.mp (by omega)⟩

/-- **Progress.**  While the consumers are not doomed and packages are left, some core brings the work down
and leaves a consumer that can go on. -/
theorem exists_progress (hle : cfg.numPkgs ≤ 1024) (hnc : 0 < nc) (hnp : 0 < np) (S : Sending cfg s)
    (K : PoolKept s) (hnot : ¬ s.Doomed) (hleft : ¬ s.Complete cfg) :
    ∃ c, ¬ (s.next cfg c).Doomed ∧ (s.next cfg c).work cfg < s.work cfg := by
  have I := S.conserved
  by_cases hbusy : ∃ i, (s.consumers i).idle = false
  · obtain ⟨i, hi⟩ := hbusy
    obtain ⟨hlt, hleaving⟩ := work_stepConsumer S (Or.inl hi)
    exact ⟨.consumer i, not_doomed_of_not_leaving hleaving, hlt⟩
  · have hidle : s.Quiescent := fun i => Bool.of_not_eq_false fun hi => hbusy ⟨i, hi⟩
    by_cases hpop : ∃ i, s.consumers i = .pop
    · obtain ⟨i, hi⟩ := hpop
      by_cases hprod : ∃ j, s.producers j ≠ .left
      · obtain ⟨j, hj⟩ := hprod
        refine ⟨.producer j, not_doomed_of_not_leaving (i := i) ?_, work_stepProducer K I hle hj⟩
        rw [next, stepProducer_consumers, hi]
        rfl
      · have hgone : ∀ j, s.producers j = .left := fun j => Classical.not_not.mp fun hj => hprod ⟨j, hj⟩
        by_cases hnodes : s.list.nodes = []
        · have hptr := I.exhausted ⟨0, hnp⟩ (by rw [hgone]; rfl)
          exact absurd (I.complete_of_idle hidle ⟨hnodes, fun j => by rw [hgone j]; rfl⟩ hptr) hleft
        · obtain ⟨hlt, hleaving⟩ := work_stepConsumer S (Or.inr (Or.inl ⟨hi, hnodes⟩))
          exact ⟨.consumer i, not_doomed_of_not_leaving hleaving, hlt⟩
    · -- no consumer is at the list: the flag decides between going back and leaving
      have hleaving : ∀ i, (s.consumers i).leaving = true := by
        intro i
        have hi := hidle i
        have hne : s.consumers i ≠ .pop := fun h => hpop ⟨i, h⟩
        cases hpc : s.consumers i with
        | pop => exact absurd hpc hne
        | checkDone | left => rfl
        | drawSn _ | move _ _ | countPdu _ | countByte _ | push _ | checkSent | loadAck | ackLoop _ _
        | free _ _ _ =>
          rw [hpc] at hi
          cases hi
      cases hdone : s.producerDone with
      | true =>
        have E : s.Emptied := Classical.not_not.mp fun h => hnot ⟨hdone, hleaving, h⟩
        exact absurd (I.complete_of_idle hidle E (I.exhausted_of_done hdone)) hleft
      | false =>
        have hcheck : s.consumers ⟨0, hnc⟩ = .checkDone := by
          have hl := hleaving ⟨0, hnc⟩
          cases hpc : s.consumers ⟨0, hnc⟩ with
          | checkDone => rfl
          | left =>
            rw [I.done_of_left _ hpc] at hdone
            cases hdone
          | pop | drawSn _ | move _ _ | countPdu _ | countByte _ | push _ | checkSent | loadAck
          | ackLoop _ _ | free _ _ _ =>
            rw [hpc] at hl
            cases hl
        obtain ⟨hlt, hback⟩ := work_stepConsumer S (Or.inr (Or.inr ⟨hcheck, hdone⟩))
        exact ⟨.consumer ⟨0, hnc⟩, not_doomed_of_not_leaving hback, hlt⟩

/-- A complete state is no dead end. -/
theorem Conserved.not_remaining (I : Conserved cfg s) (h : s.Complete cfg) : ¬ s.Remaining cfg := by
  rintro (hlt | ⟨j, pkg, hpkg⟩)
  · have hmem := (h _ hlt).1
    rw [I.received_eq, List.mem_range] at hmem
    omega
  · have hheld := carrying_pos hpkg
    have hqueued := I.queued_eq pkg
    have hone := I.received_count pkg
    have hreceived : pkg ∈ s.received := List.count_pos_iff.mp (by omega)
    rw [I.received_eq, List.mem_range] at hreceived
    have hpos := List.count_pos_iff.mpr (h pkg (Nat.lt_of_lt_of_le hreceived I.ptr_le)).2.1
    omega

/-- **The memory pool.**  For every number of producers, consumers and packages and every run: the run is in
no dead end and can be continued until all packages are sent iff there is no package, or there are a consumer
and a producer, no more packages than pages, and the consumers have not all found the list empty, with the
flag set, while something is left to send. -/
theorem dead_end_iff (nc np : Nat) (cfg : Config) (xs : List (Core nc np)) :
    (¬ DeadEnd cfg xs ∧ ∃ ys, ((machine nc np cfg).run (xs ++ ys)).Complete cfg) ↔
      cfg.numPkgs = 0 ∨
        (cfg.numPkgs ≤ 1024 ∧ 0 < nc ∧ 0 < np ∧ ¬ ((machine nc np cfg).run xs).Doomed) := by
  constructor
  · rintro ⟨_, ys, hcomplete⟩
    rcases Nat.eq_zero_or_pos cfg.numPkgs with hzero | hpos
    · exact Or.inl hzero
    · right
      have I := conserved_run cfg (xs ++ ys)
      refine ⟨(poolKept_run cfg _).numPkgs_le (sending_run cfg _).owned hcomplete,
        consumer_of_complete hpos hcomplete, ?_, fun D => ?_⟩
      · rcases Nat.eq_zero_or_pos np with hnp | hnp
        · have hmem := (hcomplete 0 hpos).1
          rw [received_nil hnp] at hmem
          cases hmem
        · exact hnp
      · exact (doomed_after cfg D ys).not_complete I hcomplete
  · intro hcond
    have hcontinue : ∃ ys, ((machine nc np cfg).run (xs ++ ys)).Complete cfg := by
      rcases hcond with hzero | ⟨hle, hnc, hnp, hnot⟩
      · exact ⟨[], fun k hk => by omega⟩
      · refine Machine.exists_continuation (M := machine nc np cfg) (P := fun s => ¬ s.Doomed)
          (Q := fun s => s.Complete cfg) (μ := work cfg) ?_ xs hnot
        intro ys hD hC
        exact exists_progress hle hnc hnp (sending_run cfg ys) (poolKept_run cfg ys) hD hC
    refine ⟨fun hdead => ?_, hcontinue⟩
    obtain ⟨ys, hcomplete⟩ := hcontinue
    exact (conserved_run cfg _).not_remaining hcomplete (hdead ys).1

/-! ## A dead end -/

/-- The pool is exhausted and every page is on the sent list, while producer `j` waits for one. -/
structure Starved (s : Sys nc np) (j : Fin np) : Prop where
  out_of_memory : mmAlloc s.mm = (none, s.mm)
  list_nil : s.list.nodes = []
  idle : s.Quiescent
  no_page : ∀ j', (s.producers j').page = none
  waits : ∃ pkg, s.producers j = .alloc pkg

theorem idle_update {f : Fin nc → ConsumerPc} {i : Fin nc} {pc : ConsumerPc} (hpc : pc.idle = true)
    (h : ∀ i, (f i).idle = true) (i' : Fin nc) : (Function.update f i pc i').idle = true := by
  by_cases hi : i' = i
  · rw [hi, Function.update_self]
    exact hpc
  · rw [Function.update_of_ne hi]
    exact h i'

theorem page_update {f : Fin np → ProducerPc} {j : Fin np} {pc : ProducerPc} (hpc : pc.page = none)
    (h : ∀ j, (f j).page = none) (j' : Fin np) : (Function.update f j pc j').page = none := by
  by_cases hj : j' = j
  · rw [hj, Function.update_self]
    exact hpc
  · rw [Function.update_of_ne hj]
    exact h j'

/-- A starved state stays so. -/
theorem Starved.next {j : Fin np} (T : Starved s j) (c : Core nc np) : Starved (s.next cfg c) j := by
  obtain ⟨hmm, hlist, hidle, hpage, pkg, hwaits⟩ := T
  cases c with
  | consumer i =>
    rw [Sys.next]
    unfold stepConsumer listPopFront
    have hi := hidle i
    cases hpc : s.consumers i with
    | pop =>
      rw [hlist]
      exact ⟨hmm, hlist, idle_update rfl hidle, hpage, pkg, hwaits⟩
    | checkDone =>
      refine ⟨hmm, hlist, idle_update ?_ hidle, hpage, pkg, hwaits⟩
      cases s.producerDone <;> rfl
    | left => exact ⟨hmm, hlist, hidle, hpage, pkg, hwaits⟩
    | drawSn _ | move _ _ | countPdu _ | countByte _ | push _ | checkSent | loadAck | ackLoop _ _
    | free _ _ _ =>
      rw [hpc] at hi
      cases hi
  | producer j' =>
    have hother : ∀ pc, s.producers j' ≠ .alloc pkg →
        ∃ pkg, Function.update s.producers j' pc j = .alloc pkg := by
      intro pc hne
      refine ⟨pkg, ?_⟩
      have hj : j ≠ j' := fun heq => hne (heq ▸ hwaits)
      rw [Function.update_of_ne hj, hwaits]
    rw [Sys.next]
    unfold stepProducer
    cases hpc : s.producers j' with
    | receive =>
      rw [hpc] at hother
      dsimp only
      split
      · exact ⟨hmm, hlist, hidle, page_update rfl hpage, hother _ (by simp)⟩
      · exact ⟨hmm, hlist, hidle, page_update rfl hpage, hother _ (by simp)⟩
    | alloc pkg' =>
      rw [hmm]
      exact ⟨hmm, hlist, hidle, hpage, pkg, hwaits⟩
    | push node =>
      have hnone := hpage j'
      rw [hpc] at hnone
      cases hnone
    | done =>
      rw [hpc] at hother
      exact ⟨hmm, hlist, hidle, page_update rfl hpage, hother _ (by simp)⟩
    | left => exact ⟨hmm, hlist, hidle, hpage, pkg, hwaits⟩

/-- A starved state is a dead end. -/
theorem deadEnd_of_starved {xs : List (Core nc np)} {j : Fin np}
    (h : Starved ((machine nc np cfg).run xs) j) : DeadEnd cfg xs := by
  intro ys
  have T : Starved ((machine nc np cfg).run (xs ++ ys)) j :=
    Machine.kept_after (P := fun s => Starved s j) (fun _ c T => T.next c) h ys
  obtain ⟨pkg, hpkg⟩ := T.waits
  refine ⟨Or.inr ⟨j, pkg, by rw [hpkg]; rfl⟩, T.list_nil, by rw [T.out_of_memory]⟩

/-- All cores are back at the start of their loops, `k` packages have had a page, and `n` PDUs are on the sent
list. -/
structure AtRest (s : Sys nc np) (k n : Nat) : Prop where
  consumers_eq : s.consumers = fun _ => .pop
  producers_eq : s.producers = fun _ => .receive
  ptr_eq : s.pdcpPkdPtr = k
  mm_eq : s.mm = ⟨pageSize * k, []⟩
  sent_eq : s.sentList.sduNum = n

/-- Three steps of a producer: a package gets its page and is queued. -/
theorem AtRest.queue {k n : Nat} (R : AtRest s k n) (cfg : Config) (hlist : s.list.nodes = [])
    (hk : k < cfg.numPkgs) (hfit : k < 1024) (j : Fin np) :
    ∃ node, AtRest ((List.replicate 3 (.producer j)).foldl (next cfg) s) (k + 1) n ∧
      ((List.replicate 3 (.producer j)).foldl (next cfg) s).list.nodes = [node] := by
  obtain ⟨hc, hp, hptr, hmm, hsent⟩ := R
  have halloc : mmAlloc ⟨pageSize * k, []⟩ = (some (pageSize * k), ⟨pageSize * (k + 1), []⟩) := by
    have hle : pageSize * k + pageSize ≤ bufferSize := by
      unfold bufferSize pageSize
      omega
    unfold mmAlloc
    exact if_pos hle
  refine ⟨⟨pageSize * k, k, cfg.pkgLength k⟩, ⟨?_, ?_, ?_, ?_, ?_⟩, ?_⟩ <;>
    simp [List.replicate, next, stepProducer, setProducer, listPushBack, hc, hp, hptr, hmm, hsent, hlist, hk,
      halloc]

/-- Seven steps of a consumer: a queued PDU is sent. -/
theorem AtRest.send {k n : Nat} (R : AtRest s k n) (cfg : Config) {node : Node}
    (hlist : s.list.nodes = [node]) (hfit : n < 1024) (i : Fin nc) :
    AtRest ((List.replicate 7 (.consumer i)).foldl (next cfg) s) k (n + 1) ∧
      ((List.replicate 7 (.consumer i)).foldl (next cfg) s).list.nodes = [] := by
  obtain ⟨hc, hp, hptr, hmm, hsent⟩ := R
  have hshort : ¬ (10000 : Int) ≤ n + 1 := by omega
  refine ⟨⟨?_, ?_, ?_, ?_, ?_⟩, ?_⟩ <;>
    simp [List.replicate, next, stepConsumer, setConsumer, listPopFront, listPushBack, hc, hp, hptr, hmm,
      hsent, hlist, hshort]

/-- One consumer and one producer send as many packages as the pool has pages. -/
theorem exists_atRest (cfg : Config) (i : Fin nc) (j : Fin np) (k : Nat) (hk : k ≤ cfg.numPkgs)
    (hfit : k ≤ 1024) : ∃ xs, AtRest ((machine nc np cfg).run xs) k k ∧
      ((machine nc np cfg).run xs).list.nodes = [] := by
  induction k with
  | zero => exact ⟨[], ⟨rfl, rfl, rfl, rfl, rfl⟩, rfl⟩
  | succ k ih =>
    obtain ⟨xs, R, hlist⟩ := ih (by omega) (by omega)
    obtain ⟨node, Q, hnode⟩ := R.queue cfg hlist (by omega) (by omega) j
    obtain ⟨R', hlist'⟩ := Q.send cfg hnode (by omega) i
    refine ⟨xs ++ (List.replicate 3 (.producer j) ++ List.replicate 7 (.consumer i)), ?_⟩
    unfold Machine.run at R' hlist' ⊢
    rw [List.foldl_append, List.foldl_append]
    exact ⟨R', hlist'⟩

/-- **More packages than pages lead to a dead end.** -/
theorem dead_end_reachable (cfg : Config) (hnc : 0 < nc) (hnp : 0 < np) (h : 1024 < cfg.numPkgs) :
    ∃ xs : List (Core nc np), DeadEnd cfg xs := by
  have j : Fin np := ⟨0, hnp⟩
  obtain ⟨xs, R, hlist⟩ := exists_atRest cfg (⟨0, hnc⟩ : Fin nc) j 1024 (Nat.le_of_lt h) (Nat.le_refl _)
  refine ⟨xs ++ [.producer j], deadEnd_of_starved (j := j) ?_⟩
  rw [Machine.run_concat]
  show Starved (((machine nc np cfg).run xs).stepProducer cfg j) j
  generalize (machine nc np cfg).run xs = s at R hlist
  have hpc : s.producers j = .receive := by rw [R.producers_eq]
  have hlt : s.pdcpPkdPtr < cfg.numPkgs := by rw [R.ptr_eq]; exact h
  have hstep : s.stepProducer cfg j =
      { s with pdcpPkdPtr := s.pdcpPkdPtr + 1, received := s.received ++ [s.pdcpPkdPtr]
        }.setProducer j (.alloc s.pdcpPkdPtr) := by
    unfold stepProducer
    rw [hpc]
    exact if_pos hlt
  have hmm : mmAlloc s.mm = (none, s.mm) := by
    rw [R.mm_eq]
    unfold mmAlloc pageSize bufferSize
    rfl
  rw [hstep]
  refine ⟨hmm, hlist, fun i => ?_, ?_, s.pdcpPkdPtr, Function.update_self ..⟩
  · show (s.consumers i).idle = true
    rw [R.consumers_eq]
    rfl
  · refine page_update rfl (fun j' => ?_)
    rw [R.producers_eq]
    rfl

/-- More packages than pages by one. -/
def onePkgTooMany : Config := ⟨1025, fun _ => 100⟩

/-- One producer and one consumer. -/
theorem dead_end_one_too_many : ∃ xs : List (Core 1 1), DeadEnd onePkgTooMany xs :=
  dead_end_reachable onePkgTooMany Nat.one_pos Nat.one_pos (by decide)

end Sys

end Rlc

end CachePool
