import CachePool.Lib.LinkChain
import CachePool.Rlc.System

/-!
# The doubly linked list (`kernel/llist.c`)

The functions of `llist.c` on the memory of the nodes and the list's header, each under the list's lock and so
one step.  Nodes are named by their pages.

* `listPushBack`, `listPopFront`, `listRemove` — the link writes, in the order of the source.
* `linked_pushBack`, `linked_popFront`, `linked_remove` — each keeps head, tail and both kinds of links in
  agreement with one sequence.
* `list_refines` — every run of calls of any cores, against the sequence: both chains are the sequence, a pop
  returns its first node, and a node that left it is not reached by any link.
* `represents_pushBack`, `represents_popFront` — the lists of the RLC program stand for such a memory.
-/

set_option autoImplicit false

namespace CachePool

namespace Rlc

/-- `Node` in memory, with the package for `data` and `tgt`. -/
structure Cell where
  prev : Option Nat
  next : Option Nat
  pkg : Nat
  dataSize : Nat
  deriving DecidableEq, Repr

/-- The node at each page. -/
abbrev Memory := Nat → Cell

/-- `LinkedList`. -/
structure Header where
  head : Option Nat
  tail : Option Nat
  sduNum : Int
  sduBytes : Int
  deriving DecidableEq, Repr

namespace Memory

variable (m : Memory)

def prev (p : Nat) : Option Nat := (m p).prev

def next (p : Nat) : Option Nat := (m p).next

/-- `p->prev = v` -/
def setPrev (p : Nat) (v : Option Nat) : Memory := Function.update m p { m p with prev := v }

/-- `p->next = v` -/
def setNext (p : Nat) (v : Option Nat) : Memory := Function.update m p { m p with next := v }

@[simp] theorem prev_setPrev (p : Nat) (v : Option Nat) :
    (m.setPrev p v).prev = Function.update m.prev p v := by
  funext q
  unfold prev setPrev
  by_cases hq : q = p
  · subst hq
    simp
  · simp [hq]

@[simp] theorem next_setPrev (p : Nat) (v : Option Nat) : (m.setPrev p v).next = m.next := by
  funext q
  unfold next setPrev
  by_cases hq : q = p
  · subst hq
    simp
  · simp [hq]

@[simp] theorem next_setNext (p : Nat) (v : Option Nat) :
    (m.setNext p v).next = Function.update m.next p v := by
  funext q
  unfold next setNext
  by_cases hq : q = p
  · subst hq
    simp
  · simp [hq]

@[simp] theorem prev_setNext (p : Nat) (v : Option Nat) : (m.setNext p v).prev = m.prev := by
  funext q
  unfold prev setNext
  by_cases hq : q = p
  · subst hq
    simp
  · simp [hq]

/-- Link writes leave the data of every node alone. -/
def SameData (m m' : Memory) : Prop := ∀ p, (m' p).pkg = (m p).pkg ∧ (m' p).dataSize = (m p).dataSize

theorem sameData_setPrev (p : Nat) (v : Option Nat) : m.SameData (m.setPrev p v) := by
  intro q
  unfold setPrev
  by_cases hq : q = p
  · subst hq
    simp
  · simp [hq]

theorem sameData_setNext (p : Nat) (v : Option Nat) : m.SameData (m.setNext p v) := by
  intro q
  unfold setNext
  by_cases hq : q = p
  · subst hq
    simp
  · simp [hq]

variable {m} {m' m'' : Memory}

theorem SameData.trans (h : m.SameData m') (h' : m'.SameData m'') : m.SameData m'' :=
  fun p => ⟨(h' p).1.trans (h p).1, (h' p).2.trans (h p).2⟩

end Memory

/-! ## `llist.c` -/

namespace Header

/-- `list_init`. -/
def listInit : Header := ⟨none, none, 0, 0⟩

/-- `list_push_back`. -/
def listPushBack (m : Memory) (l : Header) (node : Nat) : Memory × Header :=
  let m := m.setNext node none
  let m := m.setPrev node l.tail
  match l.tail with
  | some t =>
    let m := m.setNext t (some node)
    (m, { l with tail := some node, sduNum := l.sduNum + 1, sduBytes := l.sduBytes + (m node).dataSize })
  | none =>
    (m, { head := some node, tail := some node, sduNum := l.sduNum + 1,
          sduBytes := l.sduBytes + (m node).dataSize })

/-- `list_pop_front`. -/
def listPopFront (m : Memory) (l : Header) : Option Nat × Memory × Header :=
  match l.head with
  | some node =>
    let head := (m node).next
    let (m, tail) :=
      match head with
      | some h => (m.setPrev h none, l.tail)
      | none => (m, none)
    let m := m.setNext node none
    let m := m.setPrev node none
    (some node, m, { head := head, tail := tail, sduNum := l.sduNum - 1,
                     sduBytes := l.sduBytes - (m node).dataSize })
  | none => (none, m, l)

/-- `list_remove`; it does not count. -/
def listRemove (m : Memory) (l : Header) (node : Nat) : Memory × Header :=
  let (m, l) :=
    match (m node).prev with
    | some p => (m.setNext p (m node).next, l)
    | none => (m, { l with head := (m node).next })
  let (m, l) :=
    match (m node).next with
    | some n => (m.setPrev n (m node).prev, l)
    | none => (m, { l with tail := (m node).prev })
  let m := m.setPrev node none
  let m := m.setNext node none
  (m, l)

/-- The links of the memory and the header represent the sequence of pages. -/
def Holds (m : Memory) (l : Header) (seq : List Nat) : Prop :=
  Linked m.prev m.next l.head l.tail seq

variable {m : Memory} {l : Header} {seq : List Nat}

theorem linked_init (m : Memory) : Holds m listInit [] := linked_nil m.prev m.next

/-- **Appending.** -/
theorem linked_pushBack (L : Holds m l seq) {node : Nat} (hnode : node ∉ seq) :
    Holds (listPushBack m l node).1 (listPushBack m l node).2 (seq ++ [node]) := by
  have hne : ∀ q ∈ seq, q ≠ node := fun q hq heq => hnode (heq ▸ hq)
  unfold Holds listPushBack
  cases htail : l.tail with
  | none =>
    have hseq : seq = [] := by
      have heq := L.tail_eq
      rw [htail] at heq
      exact List.getLast?_eq_none_iff.mp heq.symm
    have hhead : l.head = none := by rw [L.head_eq, hseq, List.head?_nil]
    refine Linked.append L hnode ?_ ?_ ?_ ?_ ?_ ?_
    · intro q hq
      simp [hne q hq]
    · simp [htail]
    · simp
    · intro q hq
      rw [htail] at hq
      cases hq
    · intro q hq
      rw [hseq] at hq
      cases hq
    · rw [hhead, Option.none_or]
  | some t =>
    have ht : t ∈ seq := by
      have heq := L.tail_eq
      rw [htail] at heq
      exact List.mem_of_getLast? heq.symm
    have hhead : (l.head.or (some node)) = l.head := by
      have hsome : l.head.isSome := by
        rw [L.head_eq, List.isSome_head?]
        exact List.ne_nil_of_mem ht
      obtain ⟨p, hp⟩ := Option.isSome_iff_exists.mp hsome
      rw [hp, Option.some_or]
    refine Linked.append L hnode ?_ ?_ ?_ ?_ ?_ hhead.symm
    · intro q hq
      simp [hne q hq]
    · simp [htail]
    · simp [(hne t ht).symm]
    · intro q hq
      rw [htail] at hq
      cases hq
      simp
    · intro q hq hq'
      have hqt : q ≠ t := fun heq => hq' (by rw [htail, heq])
      simp [hqt, hne q hq]

/-- **Popping.** -/
theorem linked_popFront_cons {node : Nat} {rest : List Nat} (L : Holds m l (node :: rest)) :
    (listPopFront m l).1 = some node ∧
      Holds (listPopFront m l).2.1 (listPopFront m l).2.2 rest := by
  have hhead : l.head = some node := L.head_eq
  have hnext : (m node).next = rest.head? := (L.links (a := []) rfl).2
  obtain ⟨hnot, hnodup⟩ := List.nodup_cons.mp L.nodup
  have hne : ∀ q ∈ rest, q ≠ node := fun q hq heq => hnot (heq ▸ hq)
  unfold listPopFront
  rw [hhead]
  refine ⟨rfl, ?_⟩
  unfold Holds
  cases hrest : rest.head? with
  | none =>
    have hnil : rest = [] := List.head?_eq_none_iff.mp hrest
    rw [hrest] at hnext
    dsimp only
    rw [hnext, hnil]
    exact linked_nil _ _
  | some h =>
    rw [hrest] at hnext
    dsimp only
    rw [hnext]
    refine Linked.unlink (a := []) L ?_ ?_ ?_ ?_ ?_ ?_
    · intro q hq
      cases hq
    · intro q hq _
      simp [hne q hq]
    · intro q hq
      rw [hrest] at hq
      cases hq
      simp [hne h (List.mem_of_head? hrest)]
    · intro q hq hq'
      have hqh : q ≠ h := fun heq => hq' (by rw [hrest, heq])
      simp [hqh, hne q hq]
    · rw [hrest]
      rfl
    · have htail := L.tail_eq
      rw [htail, show node :: rest = [node] ++ rest from rfl, List.getLast?_append]
      obtain ⟨r, hr⟩ : ∃ r, rest.getLast? = some r :=
        Option.isSome_iff_exists.mp (by
          rw [List.getLast?_isSome]
          exact List.ne_nil_of_mem (List.mem_of_head? hrest))
      rw [hr]
      rfl

theorem popFront_nil (L : Holds m l []) : listPopFront m l = (none, m, l) := by
  have hhead : l.head = none := L.head_eq
  unfold listPopFront
  rw [hhead]

/-- The first half of `list_remove`: the node before, or the head, is linked to the node after. -/
theorem next_of_remove {node : Nat} {a b : List Nat} (L : Holds m l (a ++ node :: b)) :
    ∃ m₁ l₁, (match (m node).prev with
        | some p => (m.setNext p (m node).next, l)
        | none => (m, { l with head := (m node).next })) = (m₁, l₁) ∧
      m₁.prev = m.prev ∧ m₁ node = m node ∧ l₁.head = a.head?.or b.head? ∧ l₁.tail = l.tail ∧
      (∀ q, a.getLast? = some q → m₁.next q = b.head?) ∧ ∀ q, a.getLast? ≠ some q → m₁.next q = m.next q := by
  obtain ⟨hprev, hnext⟩ := L.links rfl
  have hprev' : (m node).prev = a.getLast? := hprev
  have hnext' : (m node).next = b.head? := hnext
  have hhead := L.head_eq
  rw [hprev', hnext']
  cases ha : a.getLast? with
  | none =>
    have hnil : a = [] := List.getLast?_eq_none_iff.mp ha
    refine ⟨m, { l with head := b.head? }, rfl, rfl, rfl, by rw [hnil]; rfl, rfl, ?_, fun _ _ => rfl⟩
    intro q hq
    cases hq
  | some p =>
    have hmem : p ∈ a := List.mem_of_getLast? ha
    have hne : node ≠ p := by
      intro heq
      exact (List.nodup_append.mp L.nodup).2.2 p hmem node List.mem_cons_self heq.symm
    refine ⟨m.setNext p b.head?, l, rfl, m.prev_setNext _ _, ?_, ?_, rfl, ?_, ?_⟩
    · unfold Memory.setNext
      rw [Function.update_of_ne hne]
    · rw [hhead, List.head?_append]
      cases a with
      | nil => cases hmem
      | cons r a => rfl
    · intro q hq
      cases hq
      simp
    · intro q hq
      have hqp : q ≠ p := fun heq => hq (by rw [heq])
      simp [hqp]

/-- **Removing a member.** -/
theorem linked_remove {node : Nat} {a b : List Nat} (L : Holds m l (a ++ node :: b)) :
    Holds (listRemove m l node).1 (listRemove m l node).2 (a ++ b) := by
  obtain ⟨m₁, l₁, hfirst, hprev₁, hnode₁, hhead₁, htail₁, hlast, hnext₁⟩ := next_of_remove L
  obtain ⟨hprev, hnext⟩ := L.links rfl
  have hprev' : (m₁ node).prev = a.getLast? := by rw [hnode₁]; exact hprev
  have hnext' : (m₁ node).next = b.head? := by rw [hnode₁]; exact hnext
  have hout : node ∉ a ++ b := by
    have hmiddle := List.nodup_middle.mp L.nodup
    exact (List.nodup_cons.mp hmiddle).1
  have hne : ∀ q ∈ a ++ b, q ≠ node := fun q hq heq => hout (heq ▸ hq)
  have hlastne : ∀ q, a.getLast? = some q → q ≠ node :=
    fun q hq => hne q (List.mem_append_left b (List.mem_of_getLast? hq))
  have htail := L.tail_eq
  rw [List.getLast?_append] at htail
  unfold Holds listRemove
  rw [hfirst]
  dsimp only
  rw [hprev', hnext']
  cases hb : b.head? with
  | none =>
    have hnil : b = [] := List.head?_eq_none_iff.mp hb
    refine Linked.unlink L ?_ ?_ ?_ ?_ ?_ ?_
    · intro q hq
      simp [hlastne q hq, hlast q hq]
    · intro q hq hq'
      simp [hne q hq, hnext₁ q hq']
    · intro q hq
      rw [hb] at hq
      cases hq
    · intro q hq _
      simp [hne q hq, hprev₁]
    · exact hhead₁
    · rw [hnil]
      rfl
  | some n =>
    have hmem : n ∈ b := List.mem_of_head? hb
    refine Linked.unlink L ?_ ?_ ?_ ?_ ?_ ?_
    · intro q hq
      simp [hlastne q hq, hlast q hq]
    · intro q hq hq'
      simp [hne q hq, hnext₁ q hq']
    · intro q hq
      rw [hb] at hq
      cases hq
      simp [hne n (List.mem_append_right a hmem)]
    · intro q hq hq'
      have hqn : q ≠ n := fun heq => hq' (by rw [hb, heq])
      simp [hqn, hne q hq, hprev₁]
    · exact hhead₁
    · rw [htail₁, htail]
      cases b with
      | nil => cases hmem
      | cons r b =>
        rw [List.getLast?_cons_cons, List.getLast?_eq_some_getLast (List.cons_ne_nil r b)]

end Header

/-! ## Runs of calls -/

/-- A call of one of the list functions. -/
inductive ListOp where
  | pushBack (node : Nat)
  | popFront
  | remove (node : Nat)
  deriving DecidableEq, Repr

/-- A core's call. -/
structure Call where
  core : Nat
  op : ListOp
  deriving DecidableEq, Repr

/-- The memory and the header; the sequence the list stands for; the nodes that have entered the list and
those that have left it, oldest first. -/
structure ListSys where
  mem : Memory
  list : Header
  seq : List Nat
  entered : List Nat
  left : List Nat

namespace ListSys

/-- `list_init`, whatever the memory holds. -/
def init (mem : Memory) : ListSys := ⟨mem, Header.listInit, [], [], []⟩

variable (s : ListSys)

/-- One call: the function's effect on the memory, beside what it does to the sequence. -/
def next (c : Call) : ListSys :=
  match c.op with
  | .pushBack node =>
    match Header.listPushBack s.mem s.list node with
    | (m, l) => ⟨m, l, s.seq ++ [node], s.entered ++ [node], s.left⟩
  | .popFront =>
    match Header.listPopFront s.mem s.list with
    | (node, m, l) => ⟨m, l, s.seq.tail, s.entered, s.left ++ node.toList⟩
  | .remove node =>
    match Header.listRemove s.mem s.list node with
    | (m, l) => ⟨m, l, s.seq.erase node, s.entered, s.left ++ [node]⟩

def machine (mem : Memory) : Machine ListSys Call := ⟨init mem, next⟩

/-- A node is appended while it is not on the list, and removed while it is. -/
def Allowed (c : Call) : Prop :=
  match c.op with
  | .pushBack node => node ∉ s.seq
  | .popFront => True
  | .remove node => node ∈ s.seq

instance (c : Call) : Decidable (s.Allowed c) := by
  unfold Allowed
  split <;> infer_instance

/-- A node that can be reached from the header by links of either kind. -/
inductive Reachable (m : Memory) (l : Header) : Nat → Prop where
  | head {p : Nat} (h : l.head = some p) : Reachable m l p
  | tail {p : Nat} (h : l.tail = some p) : Reachable m l p
  | next {p q : Nat} (hp : Reachable m l p) (h : m.next p = some q) : Reachable m l q
  | prev {p q : Nat} (hp : Reachable m l p) (h : m.prev p = some q) : Reachable m l q

/-- **The list is the sequence.** -/
structure Refines : Prop where
  /-- the forward chain from `head` -/
  forward : Chain s.mem.next s.list.head s.seq
  /-- the backward chain from `tail`, reversed -/
  backward : Chain s.mem.prev s.list.tail s.seq.reverse
  pop_oldest : (Header.listPopFront s.mem s.list).1 = s.seq.head?
  pop_null_iff : (Header.listPopFront s.mem s.list).1 = none ↔ s.seq = []
  /-- no node is on the list twice -/
  nodup : s.seq.Nodup
  /-- nodes stand in the order in which they entered -/
  in_order : List.Sublist s.seq s.entered
  /-- a node that entered is on the list or has left it -/
  conserved : ∀ p, s.entered.count p = s.left.count p + s.seq.count p
  reachable_iff : ∀ p, Reachable s.mem s.list p ↔ p ∈ s.seq

/-- What every call keeps. -/
structure Kept : Prop where
  linked : Header.Holds s.mem s.list s.seq
  in_order : List.Sublist s.seq s.entered
  conserved : ∀ p, s.entered.count p = s.left.count p + s.seq.count p

variable {s}

theorem kept_init (mem : Memory) : (init mem).Kept :=
  ⟨Header.linked_init mem, List.Sublist.refl _, fun _ => rfl⟩

/-- **One call.** -/
theorem kept_next (K : s.Kept) {c : Call} (hc : s.Allowed c) : (s.next c).Kept := by
  obtain ⟨hlinked, horder, hcount⟩ := K
  unfold Allowed at hc
  unfold next
  cases hop : c.op with
  | pushBack node =>
    rw [hop] at hc
    refine ⟨Header.linked_pushBack hlinked hc, horder.append (List.Sublist.refl _), fun p => ?_⟩
    simp only [List.count_append]
    have hp := hcount p
    omega
  | popFront =>
    cases hseq : s.seq with
    | nil =>
      rw [hseq] at hlinked hcount
      dsimp only
      rw [Header.popFront_nil hlinked]
      refine ⟨hlinked, List.nil_sublist _, fun p => ?_⟩
      have hp := hcount p
      simpa using hp
    | cons node rest =>
      rw [hseq] at hlinked hcount horder
      obtain ⟨hnode, hrest⟩ := Header.linked_popFront_cons hlinked
      refine ⟨hrest, (List.sublist_cons_self node rest).trans horder, fun p => ?_⟩
      have hp := hcount p
      dsimp only
      rw [hnode, List.count_append, Option.toList_some, List.tail_cons]
      rw [List.count_cons] at hp
      simp only [List.count_cons, List.count_nil]
      omega
  | remove node =>
    rw [hop] at hc
    obtain ⟨a, b, hnot, hseq, herase⟩ := List.exists_erase_eq hc
    rw [hseq] at hlinked
    have hcountp : ∀ p, s.seq.count p = (s.seq.erase node).count p + [node].count p := by
      intro p
      rw [herase, hseq]
      simp only [List.count_append, List.count_cons, List.count_nil]
      omega
    refine ⟨?_, List.erase_sublist.trans horder, fun p => ?_⟩
    · dsimp only
      rw [herase]
      exact Header.linked_remove hlinked
    · have hp := hcount p
      have hsplit := hcountp p
      simp only [List.count_append]
      omega

/-- A node reached along one kind of links is reached. -/
theorem reachable_of_reaches {m : Memory} {l : Header} {o : Option Nat} {q : Nat} (h : Reaches m.next o q)
    (ho : ∀ p, o = some p → Reachable m l p) : Reachable m l q := by
  induction h with
  | here => exact ho _ rfl
  | there h ih =>
    apply ih
    intro p hp
    exact (ho _ rfl).next hp

/-- The links of members lead to members. -/
theorem mem_of_reachable {m : Memory} {l : Header} {seq : List Nat} (L : Header.Holds m l seq) {p : Nat}
    (h : Reachable m l p) : p ∈ seq := by
  induction h with
  | head h =>
    rw [L.head_eq] at h
    exact List.mem_of_head? h
  | tail h =>
    rw [L.tail_eq] at h
    exact List.mem_of_getLast? h
  | next hp h ih =>
    obtain ⟨a, b, hseq⟩ := List.append_of_mem ih
    rw [(L.links hseq).2] at h
    rw [hseq]
    exact List.mem_append_right a (List.mem_cons_of_mem _ (List.mem_of_head? h))
  | prev hp h ih =>
    obtain ⟨a, b, hseq⟩ := List.append_of_mem ih
    rw [(L.links hseq).1] at h
    rw [hseq]
    exact List.mem_append_left _ (List.mem_of_getLast? h)

theorem Kept.refines (K : s.Kept) : s.Refines := by
  have L := K.linked
  have hpop : (Header.listPopFront s.mem s.list).1 = s.seq.head? := by
    cases hseq : s.seq with
    | nil =>
      rw [hseq] at L
      rw [Header.popFront_nil L]
      rfl
    | cons node rest =>
      rw [hseq] at L
      exact (Header.linked_popFront_cons L).1
  refine ⟨L.forward, L.backward, hpop, ?_, L.nodup, K.in_order, K.conserved,
    fun p => ⟨mem_of_reachable L, ?_⟩⟩
  · rw [hpop, List.head?_eq_none_iff]
  · intro hmem
    exact reachable_of_reaches ((L.forward.reaches_iff p).mpr hmem) (fun q hq => .head hq)

/-- **The doubly linked list refines a sequence.**  For every memory and every run of calls of any cores that
appends nodes not on the list and removes nodes on it. -/
theorem list_refines (mem : Memory) (xs : List Call) (h : (machine mem).Meets Allowed xs) :
    ((machine mem).run xs).Refines :=
  (Machine.invariant (M := machine mem) (kept_init mem) (fun _ _ K hc => kept_next K hc) xs h).refines

/-- Three nodes are appended, the middle one removed, one popped, and the removed one appended again. -/
def someCalls : List Call :=
  [⟨0, .pushBack 0⟩, ⟨1, .pushBack 24⟩, ⟨0, .pushBack 48⟩, ⟨2, .remove 24⟩, ⟨1, .popFront⟩, ⟨2, .pushBack 24⟩]

theorem list_refines_someCalls : ((machine fun _ => ⟨none, none, 0, 0⟩).run someCalls).seq = [48, 24] ∧
    ((machine fun _ => ⟨none, none, 0, 0⟩).run someCalls).Refines :=
  ⟨by decide, list_refines _ someCalls (by decide)⟩

end ListSys

/-! ## The lists of the RLC program -/

/-- The memory and the header stand for a list of nodes with their data. -/
structure Represents (m : Memory) (h : Header) (l : LinkedList) : Prop where
  holds : Header.Holds m h (l.nodes.map Node.page)
  data : ∀ node ∈ l.nodes, (m node.page).pkg = node.pkg ∧ (m node.page).dataSize = node.dataSize
  sduNum_eq : h.sduNum = l.sduNum
  sduBytes_eq : h.sduBytes = l.sduBytes

theorem sameData_pushBack (m : Memory) (h : Header) (p : Nat) :
    m.SameData (Header.listPushBack m h p).1 := by
  have hlinks : m.SameData ((m.setNext p none).setPrev p h.tail) :=
    (m.sameData_setNext p none).trans (Memory.sameData_setPrev _ p h.tail)
  unfold Header.listPushBack
  split
  · exact hlinks.trans (Memory.sameData_setNext _ _ _)
  · exact hlinks

theorem sameData_popFront (m : Memory) (h : Header) : m.SameData (Header.listPopFront m h).2.1 := by
  unfold Header.listPopFront
  split
  · rename_i node hhead
    have hlinks : ∀ m' : Memory, m'.SameData ((m'.setNext node none).setPrev node none) :=
      fun m' => (m'.sameData_setNext node none).trans (Memory.sameData_setPrev _ node none)
    dsimp only
    split
    · exact (m.sameData_setPrev _ none).trans (hlinks _)
    · exact hlinks m
  · exact fun _ => ⟨rfl, rfl⟩

theorem listPushBack_counts (m : Memory) (h : Header) (p : Nat) :
    (Header.listPushBack m h p).2.sduNum = h.sduNum + 1 ∧
    (Header.listPushBack m h p).2.sduBytes = h.sduBytes + (m p).dataSize := by
  have hlinks : m.SameData ((m.setNext p none).setPrev p h.tail) :=
    (m.sameData_setNext p none).trans (Memory.sameData_setPrev _ p h.tail)
  unfold Header.listPushBack
  split
  · refine ⟨rfl, ?_⟩
    dsimp only
    rw [((hlinks.trans (Memory.sameData_setNext _ _ _)) p).2]
  · refine ⟨rfl, ?_⟩
    dsimp only
    rw [(hlinks p).2]

theorem listPopFront_counts (m : Memory) (h : Header) {p : Nat} (hp : h.head = some p) :
    (Header.listPopFront m h).2.2.sduNum = h.sduNum - 1 ∧
    (Header.listPopFront m h).2.2.sduBytes = h.sduBytes - (m p).dataSize := by
  have hsame := sameData_popFront m h p
  unfold Header.listPopFront at hsame ⊢
  rw [hp] at hsame ⊢
  dsimp only at hsame ⊢
  refine ⟨rfl, ?_⟩
  rw [hsame.2]

/-- **Appending a node that is filled in.** -/
theorem represents_pushBack {m : Memory} {h : Header} {l : LinkedList} (R : Represents m h l) {node : Node}
    (hnode : node.page ∉ l.nodes.map Node.page)
    (hdata : (m node.page).pkg = node.pkg ∧ (m node.page).dataSize = node.dataSize) :
    Represents (Header.listPushBack m h node.page).1 (Header.listPushBack m h node.page).2
      (listPushBack l node) := by
  obtain ⟨hnum, hbytes⟩ := listPushBack_counts m h node.page
  refine ⟨?_, ?_, ?_, ?_⟩
  · have hholds := Header.linked_pushBack R.holds hnode
    simpa [listPushBack] using hholds
  · intro x hx
    have hx' : (m x.page).pkg = x.pkg ∧ (m x.page).dataSize = x.dataSize := by
      rcases List.mem_append.mp hx with hold | hnew
      · exact R.data x hold
      · rw [List.mem_singleton.mp hnew]
        exact hdata
    rw [(sameData_pushBack m h node.page x.page).1, (sameData_pushBack m h node.page x.page).2]
    exact hx'
  · rw [hnum, R.sduNum_eq]
    rfl
  · rw [hbytes, R.sduBytes_eq, hdata.2]
    rfl

/-- **Popping.** -/
theorem represents_popFront {m : Memory} {h : Header} {l : LinkedList} (R : Represents m h l) :
    (Header.listPopFront m h).1 = (listPopFront l).1.map Node.page ∧
    Represents (Header.listPopFront m h).2.1 (Header.listPopFront m h).2.2 (listPopFront l).2 := by
  have hholds := R.holds
  unfold listPopFront
  cases hnodes : l.nodes with
  | nil =>
    rw [hnodes] at hholds
    rw [Header.popFront_nil hholds]
    exact ⟨rfl, R⟩
  | cons node rest =>
    rw [hnodes] at hholds
    obtain ⟨hpage, hrest⟩ := Header.linked_popFront_cons hholds
    obtain ⟨hnum, hbytes⟩ := listPopFront_counts m h hholds.head_eq
    have hdata := R.data
    rw [hnodes] at hdata
    refine ⟨hpage, hrest, ?_, ?_, ?_⟩
    · intro x hx
      rw [(sameData_popFront m h x.page).1, (sameData_popFront m h x.page).2]
      exact hdata x (List.mem_cons_of_mem node hx)
    · rw [hnum, R.sduNum_eq]
    · rw [hbytes, R.sduBytes_eq, (hdata node List.mem_cons_self).2]

end Rlc

end CachePool
