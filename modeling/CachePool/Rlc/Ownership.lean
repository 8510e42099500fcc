import CachePool.Rlc.Transfer

/-!
# Who owns a page

A page of the pool is handed out by `mm_alloc`, held by a producer until it is on the list to send, by a
consumer until it is on the sent list, and by a consumer again from the sent list to `mm_free`.

* `Place`, `At` — the places a page can be in.
* `PagesKept` — counted over all places, each page of the pool is there once, and nothing else is there.
* `page_ownership` — each page is in exactly one place, no package is claimed twice and none is transmitted
  twice, in every run.
-/

set_option autoImplicit false

namespace CachePool

namespace Rlc

/-- A page of the pool, by its offset. -/
def IsPage (page : Nat) : Prop := page % pageSize = 0 ∧ page + pageSize ≤ bufferSize

instance (page : Nat) : Decidable (IsPage page) := inferInstanceAs (Decidable (_ ∧ _))

/-- The page a producer holds: from `mm_alloc` to `list_push_back`. -/
def ProducerPc.page : ProducerPc → Option Nat
  | .push node => some node.page
  | _ => none

/-- The page a consumer holds: between the two lists, and between `list_pop_front` and `mm_free`. -/
def ConsumerPc.page : ConsumerPc → Option Nat
  | .drawSn node => some node.page
  | .move node _ => some node.page
  | .countPdu node => some node.page
  | .countByte node => some node.page
  | .push node => some node.page
  | .free _ _ node => node.map Node.page
  | _ => none

/-- The places a page of the pool can be in. -/
inductive Place (nc np : Nat) where
  | neverHandedOut
  | freeList
  | heldBy (c : Core nc np)
  | toSend
  | sent

/-- Where the copies of a page are counted: what the producers hold together, and the consumers. -/
inductive Station where
  | neverHandedOut
  | freeList
  | producers
  | consumers
  | toSend
  | sent
  deriving DecidableEq

instance : Fintype Station where
  elems := {.neverHandedOut, .freeList, .producers, .consumers, .toSend, .sent}
  complete := by
    intro station
    cases station <;> simp

def Place.station {nc np : Nat} : Place nc np → Station
  | .neverHandedOut => .neverHandedOut
  | .freeList => .freeList
  | .heldBy (.consumer _) => .consumers
  | .heldBy (.producer _) => .producers
  | .toSend => .toSend
  | .sent => .sent

/-- The pages of a list's nodes. -/
def LinkedList.pages (l : LinkedList) : List Nat := l.nodes.map Node.page

theorem pages_pushBack (l : LinkedList) (node : Node) :
    (listPushBack l node).pages = l.pages ++ [node.page] := by
  simp [LinkedList.pages, listPushBack]

theorem pages_popFront (l : LinkedList) :
    l.pages = ((listPopFront l).1.map Node.page).toList ++ (listPopFront l).2.pages := by
  unfold listPopFront
  split
  · rename_i node rest hnodes
    simp [LinkedList.pages, hnodes]
  · simp

namespace Sys

variable {nc np : Nat} {cfg : Config} {s t : Sys nc np}

/-- The page core `c` holds. -/
def pageOf (s : Sys nc np) : Core nc np → Option Nat
  | .consumer i => (s.consumers i).page
  | .producer j => (s.producers j).page

/-- The page is in this place. -/
def At (s : Sys nc np) (page : Nat) : Place nc np → Prop
  | .neverHandedOut => s.mm.allocOffset ≤ page
  | .freeList => page ∈ s.mm.freeList
  | .heldBy c => s.pageOf c = some page
  | .toSend => page ∈ s.list.pages
  | .sent => page ∈ s.sentList.pages

end Sys

/-- How often the allocator has the page: never handed out, or on the free list. -/
def MmContext.copies (mm : MmContext) (page : Nat) : Nat :=
  (if IsPage page ∧ mm.allocOffset ≤ page then 1 else 0) + mm.freeList.count page

/-- A page that `mm_alloc` returns leaves the allocator. -/
theorem copies_mmAlloc {mm mm' : MmContext} {page : Nat} (hoff : mm.allocOffset % pageSize = 0)
    (h : mmAlloc mm = (some page, mm')) (p : Nat) :
    mm'.copies p + [page].count p = mm.copies p := by
  unfold mmAlloc at h
  split at h
  · rename_i hle
    cases h
    unfold MmContext.copies
    by_cases hp : p = mm.allocOffset
    · have hpage : IsPage mm.allocOffset := ⟨hoff, hle⟩
      have hnot : ¬ mm.allocOffset + pageSize ≤ mm.allocOffset := by
        unfold pageSize
        omega
      subst hp
      simp [hpage, hnot]
      omega
    · have hsame : IsPage p ∧ mm.allocOffset + pageSize ≤ p ↔ IsPage p ∧ mm.allocOffset ≤ p := by
        unfold IsPage pageSize at *
        omega
      simp only [hsame]
      simp [Ne.symm hp]
  · split at h
    · rename_i page' rest hfree
      cases h
      simp [MmContext.copies, hfree, List.count_cons]
      omega
    · cases h

/-- A page that is freed comes back to the allocator. -/
theorem copies_mmFree (mm : MmContext) (node : Option Nat) (p : Nat) :
    (mmFree mm node).copies p = mm.copies p + node.toList.count p := by
  cases node with
  | none => simp [mmFree]
  | some page =>
    unfold mmFree MmContext.copies
    simp only [List.count_cons, Option.toList_some, List.count_nil]
    omega

theorem mmAlloc_offset {mm mm' : MmContext} {page : Nat} (hoff : mm.allocOffset % pageSize = 0)
    (h : mmAlloc mm = (some page, mm')) : mm'.allocOffset % pageSize = 0 := by
  unfold mmAlloc at h
  split at h
  · cases h
    simp [hoff]
  · split at h
    · cases h
      exact hoff
    · cases h

namespace Sys

variable {nc np : Nat} {cfg : Config} {s t : Sys nc np}

/-- How often the page is in the system, over all its places. -/
def copies (s : Sys nc np) (page : Nat) : Nat :=
  s.mm.copies page + carrying ProducerPc.page page s.producers +
    carrying ConsumerPc.page page s.consumers + s.list.pages.count page + s.sentList.pages.count page

/-- **Where the pages are.** -/
structure PagesKept (s : Sys nc np) : Prop where
  offset_mod : s.mm.allocOffset % pageSize = 0
  copies_eq : ∀ page, s.copies page = if IsPage page then 1 else 0

theorem pagesKept_init : PagesKept (init : Sys nc np) where
  offset_mod := rfl
  copies_eq := by
    intro page
    have hp : carrying ProducerPc.page page (init : Sys nc np).producers = 0 :=
      carrying_eq_zero (fun _ => rfl) page
    have hc : carrying ConsumerPc.page page (init : Sys nc np).consumers = 0 :=
      carrying_eq_zero (fun _ => rfl) page
    rw [copies, hp, hc]
    simp [init, mmInit, listInit, MmContext.copies, LinkedList.pages]

/-! ## What a step does with the pages -/

/-- What a step of consumer `i` does with the pages. -/
inductive Handles (s : Sys nc np) (i : Fin nc) (t : Sys nc np) : Prop where
  | take (node : Node) (hpc : s.consumers i = .pop)
      (ht : t.consumers = Function.update s.consumers i (.drawSn node))
      (hlist : s.list.pages = node.page :: t.list.pages) (hsent : t.sentList = s.sentList) (hmm : t.mm = s.mm)
  | append (node : Node) (hpc : s.consumers i = .push node)
      (ht : t.consumers = Function.update s.consumers i .checkSent) (hlist : t.list = s.list)
      (hsent : t.sentList = listPushBack s.sentList node) (hmm : t.mm = s.mm)
  | retrieve (k ackSn : Nat) (node : Option Node) (hpc : s.consumers i = .ackLoop k ackSn)
      (ht : t.consumers = Function.update s.consumers i (.free k ackSn node)) (hlist : t.list = s.list)
      (hsent : listPopFront s.sentList = (node, t.sentList)) (hmm : t.mm = s.mm)
  | free (k ackSn : Nat) (node : Option Node) (hpc : s.consumers i = .free k ackSn node)
      (ht : t.consumers = Function.update s.consumers i (.ackLoop (k + 1) ackSn)) (hlist : t.list = s.list)
      (hsent : t.sentList = s.sentList) (hmm : t.mm = mmFree s.mm (node.map Node.page))
  | work (pc : ConsumerPc) (hpage : pc.page = (s.consumers i).page)
      (ht : t.consumers = Function.update s.consumers i pc) (hlist : t.list = s.list)
      (hsent : t.sentList = s.sentList) (hmm : t.mm = s.mm)

theorem stepConsumer_handles (s : Sys nc np) (i : Fin nc) : Handles s i (s.stepConsumer i) := by
  unfold stepConsumer
  split
  · rename_i hpc
    split
    · rename_i node l hl
      refine .take node hpc rfl ?_ rfl rfl
      have hpages := pages_popFront s.list
      rwa [hl] at hpages
    · exact .work .checkDone (by rw [hpc]; rfl) rfl rfl rfl rfl
  · rename_i hpc
    cases hdone : s.producerDone
    · exact .work .pop (by rw [hpc]; rfl) rfl rfl rfl rfl
    · exact .work .left (by rw [hpc]; rfl) rfl rfl rfl rfl
  · rename_i node hpc
    exact .work (.move node s.vtNext) (by rw [hpc]; rfl) rfl rfl rfl rfl
  · rename_i node sn hpc
    exact .work (.countPdu node) (by rw [hpc]; rfl) rfl rfl rfl rfl
  · rename_i node hpc
    exact .work (.countByte node) (by rw [hpc]; rfl) rfl rfl rfl rfl
  · rename_i node hpc
    exact .work (.push node) (by rw [hpc]; rfl) rfl rfl rfl rfl
  · rename_i node hpc
    exact .append node hpc rfl rfl rfl rfl
  · rename_i hpc
    split
    · exact .work .loadAck (by rw [hpc]; rfl) rfl rfl rfl rfl
    · exact .work .pop (by rw [hpc]; rfl) rfl rfl rfl rfl
  · rename_i hpc
    exact .work (.ackLoop s.vtNextAck (s.vtNextAck + 2)) (by rw [hpc]; rfl) rfl rfl rfl rfl
  · rename_i k ackSn hpc
    split
    · exact .retrieve k ackSn (listPopFront s.sentList).1 hpc rfl rfl rfl rfl
    · exact .work .pop (by rw [hpc]; rfl) rfl rfl rfl rfl
  · rename_i k ackSn node hpc
    exact .free k ackSn node hpc rfl rfl rfl rfl
  · rename_i hpc
    refine .work .left (by rw [hpc]) ?_ rfl rfl rfl
    rw [← hpc, Function.update_eq_self]

/-- What one core's step adds to its own hands it takes from another place, and conversely. -/
theorem carrying_update_toList {n : Nat} {α : Type} (carried : α → Option Nat) (f : Fin n → α)
    (i : Fin n) (a : α) {p q : Option Nat} (hold : carried (f i) = p) (hnew : carried a = q)
    (k : Nat) : carrying carried k (Function.update f i a) + p.toList.count k =
      carrying carried k f + q.toList.count k := by
  rw [← hold, ← hnew]
  exact carrying_update carried k f i a

theorem Handles.copies_eq {i : Fin nc} (h : Handles s i t) (hprod : t.producers = s.producers)
    (page : Nat) : t.copies page = s.copies page := by
  unfold copies
  rw [hprod]
  cases h with
  | take node hpc ht hlist hsent hmm =>
    have hc := carrying_update_toList ConsumerPc.page s.consumers i (.drawSn node) (p := none)
      (q := some node.page) (by rw [hpc]; rfl) rfl page
    rw [ht, hlist, hsent, hmm, List.count_cons]
    simp [List.count_cons] at hc ⊢
    omega
  | append node hpc ht hlist hsent hmm =>
    have hc := carrying_update_toList ConsumerPc.page s.consumers i .checkSent
      (p := some node.page) (q := none) (by rw [hpc]; rfl) rfl page
    rw [ht, hlist, hsent, hmm, pages_pushBack, List.count_append]
    simp [List.count_cons] at hc ⊢
    omega
  | retrieve k ackSn node hpc ht hlist hsent hmm =>
    have hc := carrying_update_toList ConsumerPc.page s.consumers i (.free k ackSn node) (p := none)
      (q := node.map Node.page) (by rw [hpc]; rfl) rfl page
    have hpages := pages_popFront s.sentList
    rw [hsent] at hpages
    rw [ht, hlist, hmm, hpages, List.count_append]
    simp at hc ⊢
    omega
  | free k ackSn node hpc ht hlist hsent hmm =>
    have hc := carrying_update_toList ConsumerPc.page s.consumers i (.ackLoop (k + 1) ackSn)
      (p := node.map Node.page) (q := none) (by rw [hpc]; rfl) rfl page
    rw [ht, hlist, hsent, hmm, copies_mmFree]
    simp at hc ⊢
    omega
  | work pc hpage ht hlist hsent hmm =>
    rw [ht, hlist, hsent, hmm, carrying_update_of_eq ConsumerPc.page hpage]

/-- What a producer's step does with the pages: `mm_alloc` gives it one, `list_push_back` takes it. -/
theorem stepProducer_copies (K : PagesKept s) (cfg : Config) (j : Fin np) :
    PagesKept (s.stepProducer cfg j) := by
  unfold stepProducer
  split
  · rename_i hpc
    split
    · exact ⟨K.offset_mod, fun page => by
        rw [← K.copies_eq page]
        unfold copies setProducer
        rw [carrying_update_of_eq ProducerPc.page (by rw [hpc]; rfl)]⟩
    · exact ⟨K.offset_mod, fun page => by
        rw [← K.copies_eq page]
        unfold copies setProducer
        rw [carrying_update_of_eq ProducerPc.page (by rw [hpc]; rfl)]⟩
  · rename_i pkg hpc
    split
    · rename_i page' mm hmm
      refine ⟨mmAlloc_offset K.offset_mod hmm, fun page => ?_⟩
      rw [← K.copies_eq page]
      unfold copies setProducer
      have halloc := copies_mmAlloc K.offset_mod hmm page
      have htake := carrying_update_take ProducerPc.page (f := s.producers) (i := j)
        (a := .push ⟨page', pkg, cfg.pkgLength pkg⟩) (by rw [hpc]; rfl) rfl page
      dsimp only at htake ⊢
      omega
    · exact K
  · rename_i node hpc
    refine ⟨K.offset_mod, fun page => ?_⟩
    rw [← K.copies_eq page]
    unfold copies setProducer
    have hput := carrying_update_put ProducerPc.page (f := s.producers) (i := j) (a := .receive)
      (by rw [hpc]; rfl) rfl page
    dsimp only
    rw [pages_pushBack, List.count_append]
    omega
  · rename_i hpc
    exact ⟨K.offset_mod, fun page => by
      rw [← K.copies_eq page]
      unfold copies setProducer
      rw [carrying_update_of_eq ProducerPc.page (by rw [hpc]; rfl)]⟩
  · exact K

theorem Handles.offset_eq {i : Fin nc} (h : Handles s i t) : t.mm.allocOffset = s.mm.allocOffset := by
  cases h with
  | take node hpc ht hlist hsent hmm => rw [hmm]
  | append node hpc ht hlist hsent hmm => rw [hmm]
  | retrieve k ackSn node hpc ht hlist hsent hmm => rw [hmm]
  | free k ackSn node hpc ht hlist hsent hmm =>
    rw [hmm]
    cases node <;> rfl
  | work pc hpage ht hlist hsent hmm => rw [hmm]

theorem pagesKept_next (K : PagesKept s) (c : Core nc np) : PagesKept (s.next cfg c) := by
  cases c with
  | producer j => exact stepProducer_copies K cfg j
  | consumer i =>
    have hstep := stepConsumer_handles s i
    refine ⟨?_, fun page => ?_⟩
    · rw [next, hstep.offset_eq]
      exact K.offset_mod
    · rw [next, hstep.copies_eq (stepConsumer_produced s i).1]
      exact K.copies_eq page

theorem pagesKept_run (cfg : Config) (xs : List (Core nc np)) :
    PagesKept ((machine nc np cfg).run xs) :=
  Machine.invariant_of_next (M := machine nc np cfg) pagesKept_init (fun _ c K => pagesKept_next K c) xs

/-! ## One place -/

/-- The page a core holds is counted. -/
theorem carrying_pos {n : Nat} {α : Type} {carried : α → Option Nat} {f : Fin n → α} {i : Fin n} {k : Nat}
    (h : carried (f i) = some k) : 0 < carrying carried k f := by
  have hle := le_tally (fun pc => (carried pc).toList.count k) f i
  simp only [h, Option.toList_some, List.count_singleton_self] at hle
  exact hle

theorem exists_of_carrying_pos {n : Nat} {α : Type} {carried : α → Option Nat} {f : Fin n → α} {k : Nat}
    (h : 0 < carrying carried k f) : ∃ i, carried (f i) = some k := by
  refine Classical.byContradiction fun hnone => ?_
  have hzero : carrying carried k f = 0 := by
    refine tally_eq_zero_iff.mpr fun i => ?_
    cases hc : carried (f i) with
    | none => simp
    | some k' =>
      have hne : k' ≠ k := fun heq => hnone ⟨i, by rw [hc, heq]⟩
      simp [hne]
  omega

/-- A page counted once is held by one core only. -/
theorem carrying_unique {n : Nat} {α : Type} {carried : α → Option Nat} {f : Fin n → α} {i j : Fin n}
    {k : Nat} (hone : carrying carried k f ≤ 1) (hi : carried (f i) = some k)
    (hj : carried (f j) = some k) : i = j := by
  refine Classical.byContradiction fun hne => ?_
  have hle := add_le_tally (fun pc => (carried pc).toList.count k) f hne
  simp only [hi, hj, Option.toList_some, List.count_singleton_self] at hle
  unfold carrying at hone
  omega

/-- How many copies of a page a station has. -/
def copiesAt (s : Sys nc np) (page : Nat) : Station → Nat
  | .neverHandedOut => if IsPage page ∧ s.mm.allocOffset ≤ page then 1 else 0
  | .freeList => s.mm.freeList.count page
  | .producers => carrying ProducerPc.page page s.producers
  | .consumers => carrying ConsumerPc.page page s.consumers
  | .toSend => s.list.pages.count page
  | .sent => s.sentList.pages.count page

theorem copies_eq_tally (s : Sys nc np) (page : Nat) : s.copies page = tally id (s.copiesAt page) := by
  have huniv : (Finset.univ : Finset Station) =
      {.neverHandedOut, .freeList, .producers, .consumers, .toSend, .sent} := rfl
  unfold tally
  rw [huniv]
  simp [copies, MmContext.copies, copiesAt]
  omega

theorem At.copiesAt_pos {page : Nat} (hpage : IsPage page) {place : Place nc np} (h : s.At page place) :
    0 < s.copiesAt page place.station := by
  cases place with
  | neverHandedOut =>
    unfold At at h
    simp [Place.station, copiesAt, hpage, h]
  | freeList => exact List.count_pos_iff.mpr h
  | heldBy c =>
    cases c with
    | consumer i => exact carrying_pos h
    | producer j => exact carrying_pos h
  | toSend => exact List.count_pos_iff.mpr h
  | sent => exact List.count_pos_iff.mpr h

theorem PagesKept.copiesAt_le (K : PagesKept s) (page : Nat) (station : Station) :
    s.copiesAt page station ≤ 1 := by
  have hle := le_tally id (s.copiesAt page) station
  rw [← copies_eq_tally, K.copies_eq] at hle
  simp only [id_eq] at hle
  split at hle <;> omega

/-- Two places of one page are the same place. -/
theorem PagesKept.at_unique (K : PagesKept s) {page : Nat} (hpage : IsPage page) {p q : Place nc np}
    (hp : s.At page p) (hq : s.At page q) : p = q := by
  have hstation : p.station = q.station := by
    refine Classical.byContradiction fun hne => ?_
    have hle := add_le_tally id (s.copiesAt page) hne
    rw [← copies_eq_tally, K.copies_eq, if_pos hpage] at hle
    have hp' := hp.copiesAt_pos hpage
    have hq' := hq.copiesAt_pos hpage
    simp only [id_eq] at hle
    omega
  rcases p with _ | _ | (i | i) | _ | _ <;> rcases q with _ | _ | (j | j) | _ | _ <;>
    first | rfl | cases hstation
  · rw [carrying_unique (K.copiesAt_le page .consumers) hp hq]
  · rw [carrying_unique (K.copiesAt_le page .producers) hp hq]

theorem PagesKept.exists_at (K : PagesKept s) {page : Nat} (hpage : IsPage page) :
    ∃ place : Place nc np, s.At page place := by
  have htotal := K.copies_eq page
  rw [if_pos hpage, copies_eq_tally] at htotal
  obtain ⟨station, hpos⟩ : ∃ station, id (s.copiesAt page station) ≠ 0 := by
    refine Classical.byContradiction fun hnone => ?_
    have hzero : tally id (s.copiesAt page) = 0 :=
      tally_eq_zero_iff.mpr fun station => Classical.not_not.mp fun h => hnone ⟨station, h⟩
    omega
  have hpos' : 0 < s.copiesAt page station := Nat.pos_of_ne_zero hpos
  cases station with
  | neverHandedOut =>
    refine ⟨.neverHandedOut, Classical.byContradiction fun hlt => ?_⟩
    have hzero : s.copiesAt page .neverHandedOut = 0 := if_neg (fun h => hlt h.2)
    omega
  | freeList => exact ⟨.freeList, List.count_pos_iff.mp hpos'⟩
  | producers =>
    obtain ⟨j, hj⟩ := exists_of_carrying_pos hpos'
    exact ⟨.heldBy (.producer j), hj⟩
  | consumers =>
    obtain ⟨i, hi⟩ := exists_of_carrying_pos hpos'
    exact ⟨.heldBy (.consumer i), hi⟩
  | toSend => exact ⟨.toSend, List.count_pos_iff.mp hpos'⟩
  | sent => exact ⟨.sent, List.count_pos_iff.mp hpos'⟩

/-- Every page of the pool is in exactly one place, once, and the lists hold pages of the pool only. -/
structure Owned (s : Sys nc np) : Prop where
  one_place : ∀ page, IsPage page → ∃! place, s.At page place
  once : s.mm.freeList.Nodup ∧ s.list.pages.Nodup ∧ s.sentList.pages.Nodup
  pool : ∀ page ∈ s.mm.freeList ++ s.list.pages ++ s.sentList.pages, IsPage page
  held : ∀ c page, s.pageOf c = some page → IsPage page

theorem PagesKept.isPage_of_copiesAt (K : PagesKept s) {page : Nat} (station : Station)
    (h : 0 < s.copiesAt page station) : IsPage page := by
  refine Classical.byContradiction fun hnot => ?_
  have hle := le_tally id (s.copiesAt page) station
  rw [← copies_eq_tally, K.copies_eq, if_neg hnot] at hle
  simp only [id_eq] at hle
  omega

theorem PagesKept.owned (K : PagesKept s) : s.Owned where
  one_place := by
    intro page hpage
    obtain ⟨place, hat⟩ := K.exists_at hpage
    exact ⟨place, hat, fun q hq => K.at_unique hpage hq hat⟩
  once := by
    refine ⟨?_, ?_, ?_⟩
    · exact List.nodup_iff_count_le_one.mpr fun page => K.copiesAt_le page .freeList
    · exact List.nodup_iff_count_le_one.mpr fun page => K.copiesAt_le page .toSend
    · exact List.nodup_iff_count_le_one.mpr fun page => K.copiesAt_le page .sent
  pool := by
    intro page hmem
    simp only [List.mem_append] at hmem
    rcases hmem with (hfree | hlist) | hsent
    · exact K.isPage_of_copiesAt .freeList (List.count_pos_iff.mpr hfree)
    · exact K.isPage_of_copiesAt .toSend (List.count_pos_iff.mpr hlist)
    · exact K.isPage_of_copiesAt .sent (List.count_pos_iff.mpr hsent)
  held := by
    intro c page hc
    cases c with
    | consumer i => exact K.isPage_of_copiesAt .consumers (carrying_pos hc)
    | producer j => exact K.isPage_of_copiesAt .producers (carrying_pos hc)

/-! ## Packages -/

/-- `pdcp_receive_pkg` hands package `k` to the producer that takes this step. -/
def Claims (cfg : Config) (k : Nat) (s : Sys nc np) (c : Core nc np) : Prop :=
  ∃ j, c = .producer j ∧ s.producers j = .receive ∧ (s.stepProducer cfg j).producers j = .alloc k

/-- The step puts a PDU of package `k` on the list to send. -/
def Queues (k : Nat) (s : Sys nc np) (c : Core nc np) : Prop :=
  ∃ j node, c = .producer j ∧ s.producers j = .push node ∧ node.pkg = k

/-- The step copies a PDU of package `k`, with its header, to its target. -/
def Transmits (k : Nat) (s : Sys nc np) (c : Core nc np) : Prop :=
  ∃ i node sn, c = .consumer i ∧ s.consumers i = .move node sn ∧ node.pkg = k

theorem Claims.eq {k : Nat} {c : Core nc np} (h : Claims cfg k s c) :
    k = s.pdcpPkdPtr ∧ (s.next cfg c).pdcpPkdPtr = s.pdcpPkdPtr + 1 := by
  obtain ⟨j, rfl, hpc, halloc⟩ := h
  rw [next]
  unfold stepProducer at halloc ⊢
  simp only [hpc] at halloc ⊢
  split at halloc
  · rename_i hlt
    simp only [setProducer, Function.update_self, ProducerPc.alloc.injEq] at halloc
    rw [if_pos hlt]
    exact ⟨halloc.symm, rfl⟩
  · simp [setProducer] at halloc

theorem ptr_le_next (cfg : Config) (s : Sys nc np) (c : Core nc np) :
    s.pdcpPkdPtr ≤ (s.next cfg c).pdcpPkdPtr := by
  cases c with
  | consumer i => exact Nat.le_of_eq (stepConsumer_produced s i).2.1.symm
  | producer j =>
    rw [next]
    cases stepProducer_cases cfg s j with
    | receive hpc hlt ht =>
      rw [ht]
      exact Nat.le_succ _
    | exhaust hpc hge ht => rw [ht, setProducer]
    | alloc pkg page mm hpc ht => rw [ht, setProducer]
    | queue node hpc ht => rw [ht, setProducer]
    | finish hpc ht => rw [ht, setProducer]
    | stay ht => rw [ht]

/-- Each package is claimed once. -/
theorem claims_once (cfg : Config) (k : Nat) (xs : List (Core nc np)) :
    (machine nc np cfg).AtMostOnce (Claims cfg k) xs := by
  apply Machine.atMostOnce_of_mark (L := fun s => k < s.pdcpPkdPtr)
  · intro s c hlt
    exact Nat.lt_of_lt_of_le hlt (ptr_le_next cfg s c)
  · intro xs c hclaim
    obtain ⟨hk, hptr⟩ := hclaim.eq
    show k < (((machine nc np cfg).run xs).next cfg c).pdcpPkdPtr
    omega
  · intro xs c hclaim hlt
    have hk := hclaim.eq.1
    omega

theorem Conserved.received_count (I : Conserved cfg s) (k : Nat) : s.received.count k ≤ 1 := by
  rw [I.received_eq]
  exact List.nodup_iff_count_le_one.mp List.nodup_range k

/-- The history of what has been queued only grows. -/
theorem queued_next (cfg : Config) (s : Sys nc np) (c : Core nc np) :
    s.queued <+: (s.next cfg c).queued := by
  cases c with
  | consumer i =>
    rw [next, (stepConsumer_produced s i).2.2.2.2]
  | producer j =>
    rw [next]
    cases stepProducer_cases cfg s j with
    | queue node hpc ht =>
      rw [ht]
      exact List.prefix_append _ _
    | receive hpc hlt ht | exhaust hpc hge ht | alloc pkg page mm hpc ht | finish hpc ht =>
      rw [ht, setProducer]
    | stay ht => rw [ht]

theorem queues_once (cfg : Config) (k : Nat) (xs : List (Core nc np)) :
    (machine nc np cfg).AtMostOnce (Queues k) xs := by
  apply Machine.atMostOnce_of_mark (L := fun s => k ∈ s.queued)
  · intro s c hmem
    exact (queued_next cfg s c).subset hmem
  · rintro xs c ⟨j, node, rfl, hpc, rfl⟩
    show node.pkg ∈ (((machine nc np cfg).run xs).stepProducer cfg j).queued
    unfold stepProducer
    rw [hpc]
    simp [setProducer]
  · rintro xs c ⟨j, node, rfl, hpc, rfl⟩ hmem
    have I := conserved_run cfg xs
    have hheld : 0 < carrying ProducerPc.pkg node.pkg ((machine nc np cfg).run xs).producers :=
      carrying_pos (by rw [hpc]; rfl)
    have hcount := I.queued_eq node.pkg
    have hone := I.received_count node.pkg
    have hpos := List.count_pos_iff.mpr hmem
    omega

/-- The history of what has been transmitted only grows. -/
theorem transmitted_next (cfg : Config) (s : Sys nc np) (c : Core nc np) :
    s.transmitted <+: (s.next cfg c).transmitted := by
  cases c with
  | consumer i =>
    rw [next]
    cases stepConsumer_cases s i with
    | transmit node sn hpc ht hlist hpopped htransmitted happended =>
      rw [htransmitted]
      exact List.prefix_append _ _
    | pop node hpc ht hlist hpopped htransmitted happended
    | append node hpc ht hlist hpopped htransmitted happended
    | work pc hunt huna hpc ht hlist hpopped htransmitted happended => rw [htransmitted]
    | leave hpc hdone ht => rw [ht, setConsumer]
    | stay hpc ht => rw [ht]
  | producer j =>
    rw [next, (stepProducer_consumed cfg s j).2.2.2.1]

theorem transmits_once (cfg : Config) (k : Nat) (xs : List (Core nc np)) :
    (machine nc np cfg).AtMostOnce (Transmits k) xs := by
  apply Machine.atMostOnce_of_mark (L := fun s => k ∈ s.transmitted.map Prod.fst)
  · intro s c hmem
    exact ((transmitted_next cfg s c).map Prod.fst).subset hmem
  · rintro xs c ⟨i, node, sn, rfl, hpc, rfl⟩
    show node.pkg ∈ (((machine nc np cfg).run xs).stepConsumer i).transmitted.map Prod.fst
    unfold stepConsumer
    rw [hpc]
    simp [setConsumer]
  · rintro xs c ⟨i, node, sn, rfl, hpc, rfl⟩ hmem
    have I := conserved_run cfg xs
    have hheld : 0 < carrying ConsumerPc.untransmitted node.pkg ((machine nc np cfg).run xs).consumers :=
      carrying_pos (by rw [hpc]; rfl)
    have htransmitted := I.transmitted_eq node.pkg
    have hpopped := I.popped_eq node.pkg
    have hqueued := I.queued_eq node.pkg
    have hone := I.received_count node.pkg
    have hpos := List.count_pos_iff.mpr hmem
    omega

/-- **Who owns what.**  For every number of producers, consumers and packages and every interleaving: every
page of the pool is in exactly one place, no package is claimed by two producers or twice by one, and no
package is queued or transmitted twice. -/
theorem page_ownership (nc np : Nat) (cfg : Config) (xs : List (Core nc np)) :
    ((machine nc np cfg).run xs).Owned ∧
    ∀ k, (machine nc np cfg).AtMostOnce (Claims cfg k) xs ∧ (machine nc np cfg).AtMostOnce (Queues k) xs ∧
      (machine nc np cfg).AtMostOnce (Transmits k) xs :=
  ⟨(pagesKept_run cfg xs).owned,
    fun k => ⟨claims_once cfg k xs, queues_once cfg k xs, transmits_once cfg k xs⟩⟩

end Sys

end Rlc

end CachePool
