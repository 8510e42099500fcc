import CachePool.Lib.LinkChain
import CachePool.Rlc.System

/-!
# The page allocator in memory (`kernel/mm.c`)

`mm_alloc` and `mm_free` on the memory that holds the pages: fresh pages come from a bump pointer, recycled
ones from a list whose links are the first words of the free pages themselves.  Either call runs under the
allocator's lock and is one step; between the calls the owners of live pages write into them what they like.

* `mmAlloc`, `mmFree` — the functions on `mm_context_t` and the memory.
* `Kept` — the free list is a chain of pages, and its pages and the live ones are together those that the bump
  pointer has passed.
* `kept_next` — every call and every write keeps it.
* `mmAlloc_refines`, `mmFree_refines` — the allocator of the RLC program, which has no memory, is this one.
* `page_allocator` — what holds in every state of every run.
-/

set_option autoImplicit false

namespace CachePool

namespace Rlc

namespace PageAlloc

/-- The address of `bulk_buffer`. -/
structure Pool where
  bulkBuffer : Nat
  bulkBuffer_pos : 0 < bulkBuffer

/-- `mm_context_t` with the memory, by the addresses of its words; 0 is `NULL`.  `live` has the pages that are
allocated and not freed. -/
structure State where
  allocOffset : Nat
  freeList : Nat
  mem : Nat → Nat
  live : List Nat

variable (P : Pool)

/-- `mm_init`, whatever the memory holds. -/
def mmInit (mem : Nat → Nat) : State := ⟨0, 0, mem, []⟩

variable (s : State)

/-- `mm_alloc`; `bulk_buffer` is an array of words. -/
def mmAlloc : Nat × State :=
  if s.allocOffset + pageSize ≤ bufferSize then
    (P.bulkBuffer + 4 * (s.allocOffset / 4), { s with allocOffset := s.allocOffset + pageSize })
  else if s.freeList ≠ 0 then
    (s.freeList, { s with freeList := s.mem s.freeList })
  else (0, s)

/-- `mm_free`. -/
def mmFree (p : Nat) : State :=
  if p = 0 then s
  else { s with mem := Function.update s.mem p s.freeList, freeList := p }

/-- A call, or the owner of a page filling it. -/
inductive Step where
  | alloc
  | free (p : Nat)
  | write (p : Nat) (content : Nat → Nat)

/-- One step, with its effect on the live pages. -/
def next : Step → State
  | .alloc =>
    match mmAlloc P s with
    | (page, s') => if page = 0 then s' else { s' with live := s'.live ++ [page] }
  | .free p => { mmFree s p with live := s.live.erase p }
  | .write p content => { s with mem := fun a => if p ≤ a ∧ a < p + pageSize then content a else s.mem a }

def machine (mem : Nat → Nat) : Machine State Step := ⟨mmInit mem, next P⟩

/-- Live pages, or `NULL`, are freed, and owners write in live pages. -/
def Allowed : Step → Prop
  | .alloc => True
  | .free p => p = 0 ∨ p ∈ s.live
  | .write p _ => p ∈ s.live

/-! ## The pages of the pool -/

/-- Page `i`. -/
def page (i : Nat) : Nat := P.bulkBuffer + i * pageSize

/-- A pointer read from memory. -/
def ptr (v : Nat) : Option Nat := if v = 0 then none else some v

/-- The links of the free list. -/
def nextFree (mem : Nat → Nat) (p : Nat) : Option Nat := ptr (mem p)

/-- Two pages have no byte in common. -/
def Disjoint (p q : Nat) : Prop := p + pageSize ≤ q ∨ q + pageSize ≤ p

variable {P s}

theorem page_ne_zero (i : Nat) : page P i ≠ 0 := by
  have := P.bulkBuffer_pos
  unfold page
  omega

theorem page_inj {i j : Nat} (h : page P i = page P j) : i = j := by
  unfold page pageSize at h
  omega

theorem page_disjoint {i j : Nat} (h : i ≠ j) : Disjoint (page P i) (page P j) := by
  unfold Disjoint page pageSize
  omega

theorem ptr_page (i : Nat) : ptr (page P i) = some (page P i) := if_neg (page_ne_zero i)

/-- The pages that the bump pointer has passed. -/
def passed (P : Pool) (k : Nat) : List Nat := (List.range k).map (page P)

theorem passed_succ (k : Nat) : passed P (k + 1) = passed P k ++ [page P k] := by
  simp [passed, List.range_succ]

theorem passed_nodup (k : Nat) : (passed P k).Nodup := by
  apply List.Nodup.map_on
  · intro i _ j _ h
    exact page_inj h
  · exact List.nodup_range

theorem mem_passed {k p : Nat} : p ∈ passed P k ↔ ∃ i < k, page P i = p := by
  simp [passed]

/-! ## The invariant -/

/-- The pages of the free list are `free`, and `k` pages have been taken from the buffer. -/
structure Holds (P : Pool) (s : State) (free : List Nat) (k : Nat) : Prop where
  chain : Chain (nextFree s.mem) (ptr s.freeList) free
  allocOffset : s.allocOffset = k * pageSize
  le : k ≤ 1024
  pages : (s.live ++ free).Perm (passed P k)

variable {free : List Nat} {k : Nat}

theorem Holds.nodup (H : Holds P s free k) : (s.live ++ free).Nodup := H.pages.nodup_iff.mpr (passed_nodup k)

theorem Holds.isPage (H : Holds P s free k) {p : Nat} (hp : p ∈ s.live ++ free) : ∃ i < k, page P i = p :=
  mem_passed.mp (H.pages.mem_iff.mp hp)

/-- Different pages of the pool that have been taken are disjoint. -/
theorem Holds.disjoint (H : Holds P s free k) {p q : Nat} (hp : p ∈ s.live ++ free) (hq : q ∈ s.live ++ free)
    (hne : p ≠ q) : Disjoint p q := by
  obtain ⟨i, -, rfl⟩ := H.isPage hp
  obtain ⟨j, -, rfl⟩ := H.isPage hq
  exact page_disjoint fun heq => hne (by rw [heq])

theorem Holds.freeList_eq_zero_iff (H : Holds P s free k) : s.freeList = 0 ↔ free = [] := by
  have hhead := H.chain.head_eq
  unfold ptr at hhead
  constructor
  · intro h
    rw [if_pos h] at hhead
    exact List.head?_eq_none_iff.mp hhead
  · rintro rfl
    by_contra h
    rw [if_neg h] at hhead
    cases hhead

/-- A non-empty free list starts with its first page, and the rest of it is at that page's link. -/
theorem Holds.cons (H : Holds P s free k) (h : s.freeList ≠ 0) :
    ∃ rest, free = s.freeList :: rest ∧ Chain (nextFree s.mem) (ptr (s.mem s.freeList)) rest := by
  have hchain := H.chain
  rw [show ptr s.freeList = some s.freeList from if_neg h] at hchain
  cases hchain with
  | cons hrest => exact ⟨_, rfl, hrest⟩

theorem holds_init (P : Pool) (mem : Nat → Nat) : Holds P (mmInit mem) [] 0 :=
  ⟨.nil, rfl, by omega, List.Perm.refl _⟩

/-- The buffer has a fresh page as long as fewer than 1024 have been taken. -/
theorem Holds.fresh_iff (H : Holds P s free k) : s.allocOffset + pageSize ≤ bufferSize ↔ k < 1024 := by
  rw [H.allocOffset]
  unfold bufferSize pageSize
  omega

/-- **A fresh page.** -/
theorem Holds.alloc_fresh (H : Holds P s free k) (hk : k < 1024) :
    (mmAlloc P s).1 = page P k ∧ Holds P (next P s .alloc) free (k + 1) := by
  have hpage : (mmAlloc P s).1 = page P k := by
    unfold mmAlloc
    rw [if_pos (H.fresh_iff.mpr hk)]
    dsimp only
    rw [H.allocOffset]
    unfold page pageSize
    omega
  have hstate : (mmAlloc P s).2 = { s with allocOffset := s.allocOffset + pageSize } := by
    unfold mmAlloc
    rw [if_pos (H.fresh_iff.mpr hk)]
  refine ⟨hpage, ?_⟩
  unfold next
  dsimp only
  rw [hpage, if_neg (page_ne_zero k), hstate]
  refine ⟨H.chain, ?_, hk, ?_⟩
  · dsimp only
    rw [H.allocOffset, Nat.succ_mul]
  · have hswap : (s.live ++ [page P k] ++ free).Perm (s.live ++ free ++ [page P k]) := by
      rw [List.append_assoc, List.append_assoc]
      exact List.perm_append_comm.append_left s.live
    rw [passed_succ]
    exact hswap.trans (H.pages.append_right _)

/-- **A recycled page.** -/
theorem Holds.alloc_recycled (H : Holds P s free k) (hk : ¬ k < 1024) (hfree : s.freeList ≠ 0) :
    (mmAlloc P s).1 = s.freeList ∧ Holds P (next P s .alloc) free.tail k := by
  have hfull : ¬ s.allocOffset + pageSize ≤ bufferSize := fun h => hk (H.fresh_iff.mp h)
  have halloc : mmAlloc P s = (s.freeList, { s with freeList := s.mem s.freeList }) := by
    unfold mmAlloc
    rw [if_neg hfull, if_pos hfree]
  obtain ⟨rest, rfl, hrest⟩ := H.cons hfree
  refine ⟨by rw [halloc], ?_⟩
  unfold next
  dsimp only
  rw [halloc]
  dsimp only
  rw [if_neg hfree]
  refine ⟨hrest, H.allocOffset, H.le, ?_⟩
  have hpages := H.pages
  rw [List.append_cons] at hpages
  exact hpages

/-- **No page.** -/
theorem Holds.alloc_null (H : Holds P s free k) (hk : ¬ k < 1024) (hfree : s.freeList = 0) :
    mmAlloc P s = (0, s) := by
  have hfull : ¬ s.allocOffset + pageSize ≤ bufferSize := fun h => hk (H.fresh_iff.mp h)
  unfold mmAlloc
  rw [if_neg hfull, if_neg (not_not_intro hfree)]

/-- **Freeing a live page** pushes it onto the free list, through its own first word. -/
theorem Holds.freed (H : Holds P s free k) {p : Nat} (hp : p ∈ s.live) :
    Holds P (next P s (.free p)) (p :: free) k := by
  obtain ⟨i, -, rfl⟩ := H.isPage (List.mem_append_left free hp)
  have hnot : page P i ∉ free := fun hmem => (List.nodup_append.mp H.nodup).2.2 _ hp _ hmem rfl
  have hstate : mmFree s (page P i) =
      { s with mem := Function.update s.mem (page P i) s.freeList, freeList := page P i } :=
    if_neg (page_ne_zero i)
  unfold next
  dsimp only
  rw [hstate]
  refine ⟨?_, H.allocOffset, H.le, ?_⟩
  · dsimp only
    rw [ptr_page]
    refine .cons ?_
    have hlink : nextFree (Function.update s.mem (page P i) s.freeList) (page P i) = ptr s.freeList := by
      unfold nextFree
      rw [Function.update_self]
    rw [hlink]
    apply H.chain.frame
    intro q hq
    have hne : q ≠ page P i := fun heq => hnot (heq ▸ hq)
    unfold nextFree
    rw [Function.update_of_ne hne]
  · have hback : (s.live.erase (page P i) ++ page P i :: free).Perm (s.live ++ free) := by
      calc (s.live.erase (page P i) ++ page P i :: free).Perm
              (page P i :: (s.live.erase (page P i) ++ free)) :=
            List.perm_middle
        _ |>.Perm (s.live ++ free) := (List.perm_cons_erase hp).symm.append_right free
    exact hback.trans H.pages

/-- **An owner's write** leaves the links of the free pages alone. -/
theorem Holds.write (H : Holds P s free k) {p : Nat} (hp : p ∈ s.live) (content : Nat → Nat) :
    Holds P (next P s (.write p content)) free k := by
  refine ⟨?_, H.allocOffset, H.le, H.pages⟩
  apply H.chain.frame
  intro q hq
  have hne : p ≠ q := (List.nodup_append.mp H.nodup).2.2 p hp q hq
  have hdisj := H.disjoint (List.mem_append_left free hp) (List.mem_append_right s.live hq) hne
  have hout : ¬ (p ≤ q ∧ q < p + pageSize) := by
    unfold Disjoint pageSize at hdisj
    unfold pageSize
    omega
  unfold nextFree next
  dsimp only
  rw [if_neg hout]

/-! ## Every run -/

/-- **The free list and the live pages.** -/
def Kept (P : Pool) (s : State) : Prop := ∃ free k, Holds P s free k

/-- **One step.** -/
theorem kept_next (K : Kept P s) {x : Step} (hx : Allowed s x) : Kept P (next P s x) := by
  obtain ⟨free, k, H⟩ := K
  cases x with
  | alloc =>
    by_cases hk : k < 1024
    · exact ⟨free, k + 1, (H.alloc_fresh hk).2⟩
    · by_cases hfree : s.freeList = 0
      · refine ⟨free, k, ?_⟩
        unfold next
        rw [H.alloc_null hk hfree]
        exact H
      · exact ⟨free.tail, k, (H.alloc_recycled hk hfree).2⟩
  | free p =>
    rcases hx with rfl | hp
    · refine ⟨free, k, ?_⟩
      have hnot : 0 ∉ s.live := by
        intro hmem
        obtain ⟨i, -, hi⟩ := H.isPage (List.mem_append_left free hmem)
        exact page_ne_zero i hi
      unfold next mmFree
      dsimp only
      rw [if_pos rfl, List.erase_of_not_mem hnot]
      exact H
    · exact ⟨p :: free, k, H.freed hp⟩
  | write p content => exact ⟨free, k, H.write hx content⟩

/-- What the allocator promises in a state. -/
structure Sound (P : Pool) (s : State) : Prop where
  disjoint : s.live.Pairwise Disjoint
  inside : ∀ p ∈ s.live, ∃ offset, p = P.bulkBuffer + offset ∧ pageSize ∣ offset ∧
    offset + pageSize ≤ bufferSize
  /-- the free list is a chain of pages that are not live, none of them twice, and with the live pages and
  those never used they are all pages -/
  freeList : ∃ free, Chain (nextFree s.mem) (ptr s.freeList) free ∧ free.Nodup ∧ (∀ p ∈ free, p ∉ s.live) ∧
    s.live.length + free.length + (bufferSize - s.allocOffset) / pageSize = bufferSize / pageSize
  null_iff : (mmAlloc P s).1 = 0 ↔ ∀ i < bufferSize / pageSize, page P i ∈ s.live

theorem Holds.sound (H : Holds P s free k) : Sound P s := by
  have hsplit := List.nodup_append.mp H.nodup
  have hcount : s.live.length + free.length = k := by
    have hlen := H.pages.length_eq
    rwa [List.length_append, passed, List.length_map, List.length_range] at hlen
  have hpool : bufferSize / pageSize = 1024 := by decide
  refine ⟨?_, ?_, ?_, ?_⟩
  · apply List.Pairwise.imp_of_mem ?_ hsplit.1
    intro p q hp hq hne
    exact H.disjoint (List.mem_append_left free hp) (List.mem_append_left free hq) hne
  · intro p hp
    obtain ⟨i, hi, rfl⟩ := H.isPage (List.mem_append_left free hp)
    refine ⟨i * pageSize, rfl, Nat.dvd_mul_left pageSize i, ?_⟩
    have := H.le
    unfold bufferSize pageSize
    omega
  · refine ⟨free, H.chain, hsplit.2.1, fun p hp hlive => hsplit.2.2 p hlive p hp rfl, ?_⟩
    have hle := H.le
    rw [H.allocOffset]
    unfold bufferSize pageSize
    omega
  · rw [hpool]
    constructor
    · intro hnull i hi
      have hk : ¬ k < 1024 := fun hk => page_ne_zero k ((H.alloc_fresh hk).1.symm.trans hnull)
      have hfree : s.freeList = 0 := by
        by_contra hne
        exact hne ((H.alloc_recycled hk hne).1.symm.trans hnull)
      have hpages := H.pages
      rw [H.freeList_eq_zero_iff.mp hfree, List.append_nil] at hpages
      exact hpages.mem_iff.mpr (mem_passed.mpr ⟨i, by omega, rfl⟩)
    · intro hall
      have hk : ¬ k < 1024 := by
        intro hk
        obtain ⟨j, hj, heq⟩ := H.isPage (List.mem_append_left free (hall k hk))
        have := page_inj heq
        omega
      have hfree : free = [] := by
        by_contra hne
        obtain ⟨p, hp⟩ := List.exists_mem_of_ne_nil free hne
        obtain ⟨i, hi, rfl⟩ := H.isPage (List.mem_append_right s.live hp)
        have hle := H.le
        exact hsplit.2.2 _ (hall i (by omega)) _ hp rfl
      rw [H.alloc_null hk (H.freeList_eq_zero_iff.mpr hfree)]

/-- **The page allocator.**  For every pool and every run of calls and of writes of owners in their pages. -/
theorem page_allocator (P : Pool) (mem : Nat → Nat) (xs : List Step)
    (h : (machine P mem).Meets Allowed xs) : Sound P ((machine P mem).run xs) := by
  have hkept := Machine.invariant (M := machine P mem) (P := Kept P) ⟨[], 0, holds_init P mem⟩
    (fun _ _ K hx => kept_next K hx) xs h
  obtain ⟨free, k, H⟩ := hkept
  exact H.sound

instance (s : State) (x : Step) : Decidable (Allowed s x) := by
  cases x <;> unfold Allowed <;> infer_instance

/-- A buffer at address 32: two pages are taken, the first overwritten by its owner and freed, and `NULL` is
freed. -/
def someSteps : List Step := [.alloc, .alloc, .write 32 fun _ => 7, .free 32, .free 0]

theorem page_allocator_someSteps :
    ((machine ⟨32, by decide⟩ fun _ => 0).run someSteps).live = [56] ∧
      Sound ⟨32, by decide⟩ ((machine ⟨32, by decide⟩ fun _ => 0).run someSteps) :=
  ⟨by decide, page_allocator ⟨32, by decide⟩ (fun _ => 0) someSteps (by decide)⟩

/-! ## The allocator of the RLC program -/

/-- The context and the memory stand for a context with the offsets of the free pages. -/
structure Represents (P : Pool) (s : State) (mm : MmContext) : Prop where
  allocOffset : s.allocOffset = mm.allocOffset
  aligned : 4 ∣ mm.allocOffset
  chain : Chain (nextFree s.mem) (ptr s.freeList) (mm.freeList.map (P.bulkBuffer + ·))

variable {mm : MmContext}

/-- **Allocating.** -/
theorem mmAlloc_refines (R : Represents P s mm) :
    ptr (mmAlloc P s).1 = (Rlc.mmAlloc mm).1.map (P.bulkBuffer + ·) ∧
      Represents P (mmAlloc P s).2 (Rlc.mmAlloc mm).2 := by
  have hpos := P.bulkBuffer_pos
  have halign := R.aligned
  have hchain := R.chain
  unfold mmAlloc Rlc.mmAlloc
  rw [R.allocOffset]
  split
  · refine ⟨?_, ⟨rfl, ?_, hchain⟩⟩
    · rw [Nat.mul_div_cancel' halign]
      exact if_neg (by omega)
    · dsimp only
      unfold pageSize
      omega
  · cases hfree : mm.freeList with
    | nil =>
      rw [hfree, List.map_nil] at hchain
      have hnull : s.freeList = 0 := by
        by_contra hne
        rw [show ptr s.freeList = some s.freeList from if_neg hne] at hchain
        cases hchain
      rw [if_neg (not_not_intro hnull)]
      exact ⟨rfl, R⟩
    | cons page rest =>
      rw [hfree, List.map_cons] at hchain
      have hptr : ptr s.freeList = some (P.bulkBuffer + page) := hchain.head_eq.symm
      have hval : s.freeList = P.bulkBuffer + page := by
        unfold ptr at hptr
        split at hptr
        · cases hptr
        · exact Option.some.inj hptr
      have hne : s.freeList ≠ 0 := by omega
      rw [hptr] at hchain
      rw [if_pos hne]
      refine ⟨hptr, ⟨rfl, halign, ?_⟩⟩
      cases hchain with
      | cons hrest =>
        dsimp only
        rw [hval]
        exact hrest

/-- **Freeing** a page that is not on the free list. -/
theorem mmFree_refines (R : Represents P s mm) {page : Nat} (hpage : page ∉ mm.freeList) :
    Represents P (mmFree s (P.bulkBuffer + page)) (Rlc.mmFree mm (some page)) := by
  have hpos := P.bulkBuffer_pos
  have hne : P.bulkBuffer + page ≠ 0 := by omega
  have hptr : ptr (P.bulkBuffer + page) = some (P.bulkBuffer + page) := if_neg hne
  unfold mmFree Rlc.mmFree
  rw [if_neg hne]
  refine ⟨R.allocOffset, R.aligned, ?_⟩
  dsimp only
  rw [hptr, List.map_cons]
  refine .cons ?_
  have hlink : nextFree (Function.update s.mem (P.bulkBuffer + page) s.freeList) (P.bulkBuffer + page) =
      ptr s.freeList := by
    unfold nextFree
    rw [Function.update_self]
  rw [hlink]
  apply R.chain.frame
  intro q hq
  obtain ⟨r, hr, rfl⟩ := List.mem_map.mp hq
  have hother : P.bulkBuffer + r ≠ P.bulkBuffer + page := by
    intro heq
    have : r = page := by omega
    exact hpage (this ▸ hr)
  unfold nextFree
  rw [Function.update_of_ne hother]

end PageAlloc

end Rlc

end CachePool
