import CachePool.Lib.Tickets
import CachePool.Rlc.Ownership

/-!
# Sequence numbers and the sent list

A consumer draws its sequence number with one atomic and appends the PDU to the sent list with another step.

* `neverAcknowledges_run` — a page is freed after 10000 PDUs have been sent, and the pool has 1024 pages: no
  consumer ever reaches the acknowledge loop.
* `drawnSn` — the number a consumer has drawn for a PDU that is not on the sent list yet.
* `bookkeeping_iff` — with no consumer under way, the sent list is in order of the sequence numbers iff no
  consumer appended its PDU while another one had drawn a smaller number and not appended.
* `bookkeeping_two_consumers` — two consumers that append in the other order.
-/

set_option autoImplicit false

namespace CachePool

namespace Rlc

/-- The consumer is in its acknowledge step. -/
def ConsumerPc.acking : ConsumerPc → Bool
  | .loadAck => true
  | .ackLoop _ _ => true
  | .free _ _ _ => true
  | _ => false

/-- The consumer is not between taking a node and finishing its acknowledge step. -/
def ConsumerPc.idle : ConsumerPc → Bool
  | .pop => true
  | .checkDone => true
  | .left => true
  | _ => false

/-- The PDU the consumer has a sequence number for, with the number while it is not in the PDU's header. -/
def ConsumerPc.drawn : ConsumerPc → Option (Node × Option Nat)
  | .move node sn => some (node, some sn)
  | .countPdu node => some (node, none)
  | .countByte node => some (node, none)
  | .push node => some (node, none)
  | _ => none

namespace Sys

variable {nc np : Nat} {cfg : Config} {s t : Sys nc np}

/-! ## The acknowledge step is never reached -/

/-- The pages of the pool, by offset. -/
theorem isPage_mem {page : Nat} (h : IsPage page) : page ∈ (List.range 1024).map (pageSize * ·) := by
  obtain ⟨hmod, hle⟩ := h
  refine List.mem_map.mpr ⟨page / pageSize, ?_, ?_⟩
  · rw [List.mem_range]
    unfold bufferSize pageSize at *
    omega
  · unfold pageSize at *
    omega

/-- Distinct pages are at most as many as the pool has. -/
theorem length_le_of_pages {pages : List Nat} (hnodup : pages.Nodup) (hpage : ∀ p ∈ pages, IsPage p) :
    pages.length ≤ 1024 := by
  have hsub : pages ⊆ (List.range 1024).map (pageSize * ·) := fun p hp => isPage_mem (hpage p hp)
  have hle := (hnodup.subperm hsub).length_le
  simpa using hle

theorem Owned.sent_length (O : s.Owned) : s.sentList.nodes.length ≤ 1024 := by
  have hle := length_le_of_pages O.once.2.2
    (fun p hp => O.pool p (List.mem_append_right _ hp))
  simpa [LinkedList.pages] using hle

/-- No consumer is in its acknowledge step, nothing has been acknowledged, and `sduNum` of the sent list is
the number of its nodes. -/
structure NeverAcknowledges (s : Sys nc np) : Prop where
  not_acking : ∀ i, (s.consumers i).acking = false
  vtNextAck_eq : s.vtNextAck = 0
  sduNum_eq : s.sentList.sduNum = s.sentList.nodes.length

/-- The consumer that appends its PDU to the sent list in this step. -/
def filing (s : Sys nc np) : Core nc np → Option (Fin nc)
  | .consumer i =>
    match s.consumers i with
    | .push _ => some i
    | _ => none
  | .producer _ => none

/-- What a step of consumer `i` does with sequence numbers while nobody acknowledges. -/
inductive Numbers (s : Sys nc np) (i : Fin nc) (t : Sys nc np) : Prop where
  | draw (node : Node) (hpc : s.consumers i = .drawSn node)
      (ht : t = { s with vtNext := s.vtNext + 1 }.setConsumer i (.move node s.vtNext))
  | move (node : Node) (sn : Nat) (hpc : s.consumers i = .move node sn)
      (ht : t = { s with transmitted := s.transmitted ++ [(node.pkg, sn)] }.setConsumer i (.countPdu node))
  | append (node : Node) (hpc : s.consumers i = .push node)
      (ht : t = { s with sentList := listPushBack s.sentList node, appended := s.appended ++ [node.pkg]
        }.setConsumer i .checkSent)
  | work (pc : ConsumerPc) (hdrawn : pc.drawn = (s.consumers i).drawn)
      (hpush : s.filing (.consumer i) = none) (hack : pc.acking = false)
      (ht : t.consumers = Function.update s.consumers i pc) (hsent : t.sentList = s.sentList)
      (htrans : t.transmitted = s.transmitted) (hnext : t.vtNext = s.vtNext)
      (hvtNextAck : t.vtNextAck = s.vtNextAck)

theorem stepConsumer_numbers (N : NeverAcknowledges s) (O : s.Owned) (i : Fin nc) :
    Numbers s i (s.stepConsumer i) := by
  have hlen := O.sent_length
  have hsdu := N.sduNum_eq
  have hack := N.not_acking i
  unfold stepConsumer
  split
  · rename_i hpc
    split
    · rename_i node l hl
      exact .work (.drawSn node) (by rw [hpc]; rfl) (by simp [filing, hpc]) rfl rfl rfl rfl rfl rfl
    · exact .work .checkDone (by rw [hpc]; rfl) (by simp [filing, hpc]) rfl rfl rfl rfl rfl rfl
  · rename_i hpc
    cases hdone : s.producerDone
    · exact .work .pop (by rw [hpc]; rfl) (by simp [filing, hpc]) rfl rfl rfl rfl rfl rfl
    · exact .work .left (by rw [hpc]; rfl) (by simp [filing, hpc]) rfl rfl rfl rfl rfl rfl
  · rename_i node hpc
    exact .draw node hpc rfl
  · rename_i node sn hpc
    exact .move node sn hpc rfl
  · rename_i node hpc
    exact .work (.countByte node) (by rw [hpc]; rfl) (by simp [filing, hpc]) rfl rfl rfl rfl rfl rfl
  · rename_i node hpc
    exact .work (.push node) (by rw [hpc]; rfl) (by simp [filing, hpc]) rfl rfl rfl rfl rfl rfl
  · rename_i node hpc
    exact .append node hpc rfl
  · rename_i hpc
    split
    · omega
    · exact .work .pop (by rw [hpc]; rfl) (by simp [filing, hpc]) rfl rfl rfl rfl rfl rfl
  · rename_i hpc
    rw [hpc] at hack
    cases hack
  · rename_i k ackSn hpc
    rw [hpc] at hack
    cases hack
  · rename_i k ackSn node hpc
    rw [hpc] at hack
    cases hack
  · rename_i hpc
    refine .work .left (by rw [hpc]) (by simp [filing, hpc]) rfl ?_ rfl rfl rfl rfl
    rw [← hpc, Function.update_eq_self]

theorem acking_update {f : Fin nc → ConsumerPc} {i : Fin nc} {pc : ConsumerPc} (hpc : pc.acking = false)
    (h : ∀ i, (f i).acking = false) (i' : Fin nc) : (Function.update f i pc i').acking = false := by
  by_cases hi : i' = i
  · rw [hi, Function.update_self]
    exact hpc
  · rw [Function.update_of_ne hi]
    exact h i'

theorem stepProducer_sent (cfg : Config) (s : Sys nc np) (j : Fin np) :
    (s.stepProducer cfg j).sentList = s.sentList ∧ (s.stepProducer cfg j).transmitted = s.transmitted ∧
    (s.stepProducer cfg j).vtNext = s.vtNext ∧ (s.stepProducer cfg j).vtNextAck = s.vtNextAck := by
  obtain ⟨_, hsent, _, htransmitted, hnext, hack⟩ := stepProducer_consumed cfg s j
  exact ⟨hsent, htransmitted, hnext, hack⟩

theorem neverAcknowledges_next (O : s.Owned) (N : NeverAcknowledges s) (c : Core nc np) :
    NeverAcknowledges (s.next cfg c) := by
  cases c with
  | producer j =>
    obtain ⟨hsent, _, _, hack⟩ := stepProducer_sent cfg s j
    refine ⟨fun i => ?_, ?_, ?_⟩
    · rw [next, stepProducer_consumers]
      exact N.not_acking i
    · rw [next, hack]
      exact N.vtNextAck_eq
    · rw [next, hsent]
      exact N.sduNum_eq
  | consumer i =>
    rw [next]
    cases stepConsumer_numbers N O i with
    | draw node hpc ht =>
      rw [ht]
      exact ⟨acking_update rfl N.not_acking, N.vtNextAck_eq, N.sduNum_eq⟩
    | move node sn hpc ht =>
      rw [ht]
      exact ⟨acking_update rfl N.not_acking, N.vtNextAck_eq, N.sduNum_eq⟩
    | append node hpc ht =>
      rw [ht]
      refine ⟨acking_update rfl N.not_acking, N.vtNextAck_eq, ?_⟩
      have hsdu := N.sduNum_eq
      simp only [setConsumer, listPushBack, List.length_append, List.length_singleton]
      omega
    | work pc hdrawn hpush hack ht hsent htrans hnext hvtNextAck =>
      refine ⟨?_, ?_, ?_⟩
      · rw [ht]
        exact acking_update hack N.not_acking
      · rw [hvtNextAck]
        exact N.vtNextAck_eq
      · rw [hsent]
        exact N.sduNum_eq

/-- **The pool is smaller than the threshold.** -/
theorem neverAcknowledges_run (cfg : Config) (xs : List (Core nc np)) :
    NeverAcknowledges ((machine nc np cfg).run xs) := by
  refine Machine.invariant_upon (M := machine nc np cfg) (C := fun _ _ => True)
    (fun ys => (pagesKept_run cfg ys).owned) ?_ ?_ xs (fun _ _ _ _ => trivial)
  · exact ⟨fun _ => rfl, rfl, rfl⟩
  · intro s c O N _
    exact neverAcknowledges_next O N c

/-! ## Numbers in hand and on the sent list -/

/-- The sequence number in the header of a PDU that has been transmitted. -/
def snOf (s : Sys nc np) (node : Node) : Option Nat := s.transmitted.lookup node.pkg

/-- The number of the PDU a consumer has in hand. -/
def snAt (s : Sys nc np) (pc : ConsumerPc) : Option Nat :=
  match pc.drawn with
  | some (_, some sn) => some sn
  | some (node, none) => s.snOf node
  | none => none

/-- The number consumer `i` has drawn for a PDU that is not on the sent list yet. -/
def drawnSn (s : Sys nc np) (i : Fin nc) : Option Nat := s.snAt (s.consumers i)

/-- The counter `vtNext`, the numbers in the consumers' hands, and those on the sent list. -/
def tickets (s : Sys nc np) : Tickets (Fin nc) :=
  ⟨s.vtNext, s.drawnSn, s.sentList.nodes.filterMap s.snOf⟩

/-- If this step appends a PDU to the sent list, no other consumer has drawn a smaller number and not appended
its PDU. -/
def InOrder (s : Sys nc np) (c : Core nc np) : Prop :=
  ∀ i, s.filing c = some i → s.tickets.InFront i

/-- A page freed as acknowledged for number `k` is that of the PDU sent with number `k`. -/
def FreesItsOwn (s : Sys nc np) (c : Core nc np) : Prop :=
  ∀ i k ackSn node, c = .consumer i → s.consumers i = .free k ackSn (some node) → s.snOf node = some k

/-- No consumer is between taking a node and finishing its acknowledge step. -/
def Quiescent (s : Sys nc np) : Prop := ∀ i, (s.consumers i).idle = true

instance : Decidable s.Quiescent := inferInstanceAs (Decidable (∀ _, _))

/-- The sent list is in order of the sequence numbers, and holds those not acknowledged. -/
structure Bookkept (s : Sys nc np) : Prop where
  numbered : ∀ node ∈ s.sentList.nodes, (s.snOf node).isSome = true
  ordered : (s.sentList.nodes.filterMap s.snOf).Pairwise (· < ·)
  count_eq : s.vtNext = s.vtNextAck + s.sentList.nodes.length

/-- Every PDU that has been transmitted and is in hand or on the sent list has its number in its header. -/
structure Headed (s : Sys nc np) : Prop where
  sent : ∀ node ∈ s.sentList.nodes, (s.snOf node).isSome = true
  drawn : ∀ i node, (s.consumers i).drawn = some (node, none) → (s.snOf node).isSome = true

/-- A PDU that has its number keeps it while others are transmitted. -/
theorem snOf_append {node : Node} {x : Nat × Nat} (h : (s.snOf node).isSome = true)
    (ht : t.transmitted = s.transmitted ++ [x]) : t.snOf node = s.snOf node := by
  obtain ⟨sn, hsn⟩ := Option.isSome_iff_exists.mp h
  unfold snOf at hsn ⊢
  rw [ht, List.lookup_append, hsn, Option.some_or]

/-- A PDU in hand and not transmitted gets its number when it is. -/
theorem snOf_transmitted (I : Conserved cfg s) {i : Fin nc} {node : Node} {sn : Nat}
    (hpc : s.consumers i = .move node sn) (ht : t.transmitted = s.transmitted ++ [(node.pkg, sn)]) :
    t.snOf node = some sn := by
  have hheld : 0 < carrying ConsumerPc.untransmitted node.pkg s.consumers := carrying_pos (by rw [hpc]; rfl)
  have htransmitted := I.transmitted_eq node.pkg
  have hpopped := I.popped_eq node.pkg
  have hqueued := I.queued_eq node.pkg
  have hone := I.received_count node.pkg
  have hnot : node.pkg ∉ s.transmitted.map Prod.fst := by
    intro hmem
    have hpos := List.count_pos_iff.mpr hmem
    omega
  have hnone : s.transmitted.lookup node.pkg = none := by
    rw [List.lookup_eq_none_iff]
    intro x hx
    have hne : node.pkg ≠ x.1 := fun heq => hnot (heq ▸ List.mem_map_of_mem hx)
    simpa using hne
  unfold snOf
  rw [ht, List.lookup_append, hnone, Option.none_or, List.lookup_cons_self]

/-- The numbers in hand after a step of consumer `i`. -/
theorem drawnSn_update {i : Fin nc} {pc : ConsumerPc}
    (ht : t.consumers = Function.update s.consumers i pc)
    (hsame : ∀ i', i' ≠ i → t.snAt (s.consumers i') = s.snAt (s.consumers i')) :
    t.drawnSn = Function.update s.drawnSn i (t.snAt pc) := by
  funext i'
  unfold drawnSn
  rw [ht]
  by_cases hi : i' = i
  · subst hi
    simp
  · rw [Function.update_of_ne hi, Function.update_of_ne hi]
    exact hsame i' hi

theorem snAt_congr (ht : t.transmitted = s.transmitted) (pc : ConsumerPc) : t.snAt pc = s.snAt pc := by
  unfold snAt snOf
  rw [ht]

theorem drawn_update_pc {f : Fin nc → ConsumerPc} {i i' : Fin nc} {pc : ConsumerPc} {x : Node × Option Nat}
    (h : (Function.update f i pc i').drawn = some x) : pc.drawn = some x ∨ (f i').drawn = some x := by
  by_cases hi : i' = i
  · rw [hi, Function.update_self] at h
    exact Or.inl h
  · rw [Function.update_of_ne hi] at h
    exact Or.inr h

/-- The headers after a step of consumer `i`. -/
theorem Headed.numbers (H : Headed s) (I : Conserved cfg s) {i : Fin nc} (h : Numbers s i t) : Headed t := by
  cases h with
  | draw node hpc ht =>
    subst ht
    refine ⟨H.sent, fun i' node' hdrawn => ?_⟩
    rcases drawn_update_pc hdrawn with hnew | hold
    · cases hnew
    · exact H.drawn i' node' hold
  | move node sn hpc ht =>
    have htrans : t.transmitted = s.transmitted ++ [(node.pkg, sn)] := by rw [ht, setConsumer]
    have hsn := snOf_transmitted I hpc htrans
    refine ⟨?_, fun i' node' hdrawn => ?_⟩
    · intro node' hmem
      rw [ht] at hmem
      rw [snOf_append (H.sent node' hmem) htrans]
      exact H.sent node' hmem
    · rw [ht] at hdrawn
      rcases drawn_update_pc hdrawn with hnew | hold
      · cases hnew
        rw [hsn]
        rfl
      · rw [snOf_append (H.drawn i' node' hold) htrans]
        exact H.drawn i' node' hold
  | append node hpc ht =>
    subst ht
    refine ⟨?_, fun i' node' hdrawn => ?_⟩
    · intro node' hmem
      rcases List.mem_append.mp hmem with hold | hnew
      · exact H.sent node' hold
      · rw [List.mem_singleton.mp hnew]
        exact H.drawn i node (by rw [hpc]; rfl)
    · rcases drawn_update_pc hdrawn with hnew | hold
      · cases hnew
      · exact H.drawn i' node' hold
  | work pc hdrawn' hpush hack ht hsent htrans hnext hvtNextAck =>
    refine ⟨?_, fun i' node' hdrawn => ?_⟩
    · unfold snOf
      rw [hsent, htrans]
      exact H.sent
    · unfold snOf
      rw [htrans]
      rw [ht] at hdrawn
      rcases drawn_update_pc hdrawn with hnew | hold
      · exact H.drawn i node' (by rw [← hdrawn']; exact hnew)
      · exact H.drawn i' node' hold

/-- A step of a consumer, seen as drawing and filing numbers. -/
theorem Numbers.ticketStep (H : Headed s) (I : Conserved cfg s) {i : Fin nc} (h : Numbers s i t) :
    Tickets.Step s.tickets t.tickets (s.filing (.consumer i)) := by
  cases h with
  | draw node hpc ht =>
    have htrans : t.transmitted = s.transmitted := by rw [ht, setConsumer]
    have hwho : s.filing (.consumer i) = none := by simp [filing, hpc]
    rw [hwho]
    refine .draw i ?_ (by rw [ht]; rfl) ?_ (by rw [ht]; rfl)
    · show s.snAt (s.consumers i) = none
      rw [hpc]
      rfl
    · exact drawnSn_update (by rw [ht]; rfl) (fun i' _ => snAt_congr htrans _)
  | move node sn hpc ht =>
    have htrans : t.transmitted = s.transmitted ++ [(node.pkg, sn)] := by rw [ht, setConsumer]
    have hsn := snOf_transmitted I hpc htrans
    have hwho : s.filing (.consumer i) = none := by simp [filing, hpc]
    rw [hwho]
    refine .stay (by rw [ht]; rfl) ?_ ?_
    · have hupd : t.drawnSn = Function.update s.drawnSn i (t.snAt (.countPdu node)) := by
        refine drawnSn_update (by rw [ht]; rfl) (fun i' _ => ?_)
        unfold snAt
        split
        · rfl
        · rename_i node' hdrawn
          exact snOf_append (H.drawn i' node' hdrawn) htrans
        · rfl
      have hold : s.drawnSn i = some sn := by
        unfold drawnSn
        rw [hpc]
        rfl
      have hnew : t.snAt (.countPdu node) = some sn := hsn
      show t.drawnSn = s.drawnSn
      rw [hupd, hnew, ← hold, Function.update_eq_self]
    · show t.sentList.nodes.filterMap t.snOf = s.sentList.nodes.filterMap s.snOf
      have hsent : t.sentList = s.sentList := by rw [ht, setConsumer]
      rw [hsent]
      exact List.filterMap_congr (fun node' hmem => snOf_append (H.sent node' hmem) htrans)
  | append node hpc ht =>
    have htrans : t.transmitted = s.transmitted := by rw [ht, setConsumer]
    obtain ⟨sn, hsn⟩ := Option.isSome_iff_exists.mp (H.drawn i node (by rw [hpc]; rfl))
    have hwho : s.filing (.consumer i) = some i := by simp [filing, hpc]
    rw [hwho]
    refine .file i sn ?_ (by rw [ht]; rfl) ?_ ?_
    · show s.snAt (s.consumers i) = some sn
      rw [hpc]
      exact hsn
    · exact drawnSn_update (by rw [ht]; rfl) (fun i' _ => snAt_congr htrans _)
    · rw [ht]
      show (s.sentList.nodes ++ [node]).filterMap s.snOf = s.sentList.nodes.filterMap s.snOf ++ [sn]
      rw [List.filterMap_append]
      simp [hsn]
  | work pc hdrawn hpush hack ht hsent htrans hnext hvtNextAck =>
    rw [hpush]
    refine .stay hnext ?_ ?_
    · show t.drawnSn = s.drawnSn
      have hupd := drawnSn_update ht (fun i' _ => snAt_congr htrans _)
      have hsame : t.snAt pc = s.drawnSn i := by
        rw [snAt_congr htrans]
        unfold drawnSn snAt
        rw [hdrawn]
      rw [hupd, hsame, Function.update_eq_self]
    · show t.sentList.nodes.filterMap t.snOf = s.sentList.nodes.filterMap s.snOf
      unfold snOf
      rw [hsent, htrans]

/-! ## Runs -/

/-- What holds in every run, with any number of consumers. -/
structure Sending (cfg : Config) (s : Sys nc np) : Prop where
  owned : s.Owned
  conserved : Conserved cfg s
  never : NeverAcknowledges s
  headed : Headed s
  lawful : s.tickets.Lawful

theorem Sending.ticketStep (S : Sending cfg s) (c : Core nc np) :
    Tickets.Step s.tickets (s.next cfg c).tickets (s.filing c) := by
  cases c with
  | consumer i => exact (stepConsumer_numbers S.never S.owned i).ticketStep S.headed S.conserved
  | producer j =>
    obtain ⟨hsent, htrans, hnext, _⟩ := stepProducer_sent cfg s j
    refine .stay hnext ?_ ?_
    · funext i
      show (s.stepProducer cfg j).snAt ((s.stepProducer cfg j).consumers i) = s.snAt (s.consumers i)
      rw [stepProducer_consumers, snAt_congr htrans]
    · show (s.stepProducer cfg j).sentList.nodes.filterMap (s.stepProducer cfg j).snOf = _
      unfold snOf
      rw [hsent, htrans]
      rfl

theorem headed_next (S : Sending cfg s) (c : Core nc np) : Headed (s.next cfg c) := by
  cases c with
  | consumer i => exact S.headed.numbers S.conserved (stepConsumer_numbers S.never S.owned i)
  | producer j =>
    obtain ⟨hsent, htrans, _, _⟩ := stepProducer_sent cfg s j
    refine ⟨?_, fun i node hdrawn => ?_⟩
    · unfold snOf
      rw [next, hsent, htrans]
      exact S.headed.sent
    · rw [next, stepProducer_consumers] at hdrawn
      unfold snOf
      rw [next, htrans]
      exact S.headed.drawn i node hdrawn

theorem sending_run (cfg : Config) (xs : List (Core nc np)) : Sending cfg ((machine nc np cfg).run xs) := by
  induction xs using List.reverseRecOn with
  | nil =>
    refine ⟨(pagesKept_run cfg []).owned, conserved_run cfg [], neverAcknowledges_run cfg [], ?_, ?_⟩
    · exact ⟨(fun _ h => nomatch h), (fun _ _ h => nomatch h)⟩
    · refine ⟨(fun _ h => nomatch h), (fun _ _ h => nomatch h), ?_⟩
      have hzero : tally (fun d : Option Nat => d.toList.length) (init : Sys nc np).tickets.drawn = 0 :=
        tally_eq_zero_iff.mpr (fun _ => rfl)
      exact (congrArg (0 + ·) hzero).symm
  | append_singleton xs c ih =>
    refine ⟨(pagesKept_run cfg _).owned, conserved_run cfg _, neverAcknowledges_run cfg _, ?_, ?_⟩
    · rw [Machine.run_concat]
      exact headed_next ih c
    · rw [Machine.run_concat]
      exact (ih.ticketStep c).lawful ih.lawful

theorem idle_drawn {pc : ConsumerPc} (h : pc.idle = true) : pc.drawn = none := by
  cases pc with
  | pop => rfl
  | checkDone => rfl
  | left => rfl
  | drawSn node => rfl
  | move node sn => cases h
  | countPdu node => cases h
  | countByte node => cases h
  | push node => cases h
  | checkSent => rfl
  | loadAck => rfl
  | ackLoop k ackSn => rfl
  | free k ackSn node => rfl

theorem Quiescent.drawn_none (Q : s.Quiescent) (i : Fin nc) : s.tickets.drawn i = none := by
  show s.snAt (s.consumers i) = none
  unfold snAt
  rw [idle_drawn (Q i)]

theorem Sending.count_eq (S : Sending cfg s) (Q : s.Quiescent) :
    s.vtNext = s.vtNextAck + s.sentList.nodes.length := by
  have heq : s.vtNext = (s.sentList.nodes.filterMap s.snOf).length + _ := S.lawful.next_eq
  have hidle : tally (fun d : Option Nat => d.toList.length) s.tickets.drawn = 0 := by
    refine tally_eq_zero_iff.mpr (fun i => ?_)
    rw [Q.drawn_none i]
    rfl
  have hlen : (s.sentList.nodes.filterMap s.snOf).length = s.sentList.nodes.length :=
    List.filterMap_length_eq_length.mpr S.headed.sent
  rw [hidle, hlen] at heq
  rw [S.never.vtNextAck_eq, heq]
  omega

/-- Consumers that append in turn keep the sent list in order. -/
theorem ordered_run (cfg : Config) (xs : List (Core nc np)) (h : (machine nc np cfg).Meets InOrder xs) :
    ((machine nc np cfg).run xs).tickets.Ordered := by
  refine Machine.invariant_upon (P := fun s => s.tickets.Ordered) (sending_run cfg)
    ⟨List.Pairwise.nil, (fun _ h => nomatch h)⟩ ?_ xs h
  intro s c S O hturn
  exact (S.ticketStep c).ordered S.lawful.filed_lt hturn O

/-- Once the sent list is out of order it stays so. -/
theorem inverted_after (cfg : Config) {pre : List (Core nc np)}
    (h : ((machine nc np cfg).run pre).tickets.Inverted) (post : List (Core nc np)) :
    ((machine nc np cfg).run (pre ++ post)).tickets.Inverted := by
  induction post using List.reverseRecOn with
  | nil => rwa [List.append_nil]
  | append_singleton post c ih =>
    rw [← List.append_assoc, Machine.run_concat]
    exact ((sending_run cfg (pre ++ post)).ticketStep c).inverted ih

theorem freesItsOwn_run (cfg : Config) (xs : List (Core nc np)) :
    (machine nc np cfg).Meets FreesItsOwn xs := by
  intro pre c post _ i k ackSn node _ hpc
  have hack := (neverAcknowledges_run cfg pre).not_acking i
  rw [hpc] at hack
  cases hack

/-- **Sequence numbers.**  For every number of consumers and producers and every interleaving that ends with
no consumer between taking a node and finishing its acknowledge step: the sent list is in order of the
sequence numbers, holds exactly those not acknowledged, and every page freed was that of its number iff no
consumer appended its PDU while another one had drawn a smaller number and not appended. -/
theorem bookkeeping_iff (nc np : Nat) (cfg : Config) (xs : List (Core nc np))
    (hq : ((machine nc np cfg).run xs).Quiescent) :
    ((machine nc np cfg).run xs).Bookkept ∧ (machine nc np cfg).Meets FreesItsOwn xs ↔
      (machine nc np cfg).Meets InOrder xs := by
  constructor
  · rintro ⟨B, _⟩ pre c post heq i hwho
    refine Classical.byContradiction fun hnot => ?_
    have hstep := (sending_run cfg pre).ticketStep c
    rw [hwho] at hstep
    have hinv : ((machine nc np cfg).run (pre ++ [c])).tickets.Inverted := by
      rw [Machine.run_concat]
      exact hstep.inverted_of_file hnot
    have hend := inverted_after cfg hinv post
    rw [List.append_assoc, List.singleton_append, ← heq] at hend
    exact hend.not_pairwise hq.drawn_none B.ordered
  · intro h
    have S := sending_run cfg xs
    exact ⟨⟨S.headed.sent, (ordered_run cfg xs h).pairwise, S.count_eq hq⟩, freesItsOwn_run cfg xs⟩

/-- A single consumer appends in turn. -/
theorem inOrder_single (cfg : Config) (xs : List (Core 1 np)) : (machine 1 np cfg).Meets InOrder xs := by
  intro pre c post _ i _ sn _ j hne
  exact absurd (Subsingleton.elim j i) hne

/-- After its one PDU the consumer has sent number 0. -/
theorem bookkeeping_producer_first : ((machine 1 1 onePkg).run producerFirst).Quiescent ∧
    ((machine 1 1 onePkg).run producerFirst).Bookkept ∧
    (machine 1 1 onePkg).Meets FreesItsOwn producerFirst :=
  ⟨by decide, (bookkeeping_iff 1 1 onePkg producerFirst (by decide)).mpr (inOrder_single onePkg _)⟩

/-- Two packages of 100 bytes. -/
def twoPkgs : Config := ⟨2, fun _ => 100⟩

/-- Consumers `i` and `i'` each take a package and draw a number in turn; the second one appends first. -/
def appendSwapped {nc np : Nat} (i i' : Fin nc) (j : Fin np) : List (Core nc np) :=
  List.replicate 6 (Core.producer j) ++ List.replicate 2 (Core.consumer i) ++
    List.replicate 7 (Core.consumer i') ++ List.replicate 5 (Core.consumer i)

theorem bookkeeping_two_consumers : ((machine 2 1 twoPkgs).run (appendSwapped 0 1 0)).Quiescent ∧
    ((machine 2 1 twoPkgs).run (appendSwapped 0 1 0)).sentList.nodes.map Node.pkg = [1, 0] ∧
    ¬ ((machine 2 1 twoPkgs).run (appendSwapped 0 1 0)).Bookkept := by
  refine ⟨by decide, by decide, fun B => ?_⟩
  have hordered := B.ordered
  revert hordered
  decide

end Sys

end Rlc

end CachePool
