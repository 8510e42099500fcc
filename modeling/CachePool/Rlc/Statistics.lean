import CachePool.Rlc.DoublyLinked

/-!
# The statistics of a list (`sduNum` and `sduBytes` in `kernel/llist.c`)

The two counters of the header are kept beside the links by each function.  A run is any sequence of calls on
one list, with the owners of the nodes that are not on it writing their `data_size` in between.

* `ListSys.Exact` — the counters, as the `int` fields they are, are the number of nodes and the sum of their
  sizes.
* `listRemove_counts` — `list_remove` leaves both counters alone.
* `exact_next_iff` — one step keeps them exact exactly if it is not a removal and the sums still fit.
* `list_statistics_iff` — every state of a run is exact exactly if its steps all meet that.
-/

set_option autoImplicit false

namespace CachePool

namespace Rlc

namespace Memory

/-- The owner of a node writes `data_size`. -/
def setDataSize (m : Memory) (p size : Nat) : Memory := Function.update m p { m p with dataSize := size }

variable {m : Memory} {p size : Nat}

@[simp] theorem prev_setDataSize : (m.setDataSize p size).prev = m.prev := by
  funext q
  unfold prev setDataSize
  by_cases hq : q = p
  · subst hq
    simp
  · simp [hq]

@[simp] theorem next_setDataSize : (m.setDataSize p size).next = m.next := by
  funext q
  unfold next setDataSize
  by_cases hq : q = p
  · subst hq
    simp
  · simp [hq]

theorem dataSize_setDataSize_of_ne {q : Nat} (h : q ≠ p) :
    (m.setDataSize p size q).dataSize = (m q).dataSize := by
  simp [setDataSize, h]

end Memory

/-- Links aside, `list_remove` writes the header's ends only. -/
theorem listRemove_counts (m : Memory) (h : Header) (p : Nat) :
    (Header.listRemove m h p).2.sduNum = h.sduNum ∧ (Header.listRemove m h p).2.sduBytes = h.sduBytes := by
  unfold Header.listRemove
  cases hprev : (m p).prev with
  | none =>
    dsimp only
    split <;> exact ⟨rfl, rfl⟩
  | some q =>
    dsimp only
    split <;> exact ⟨rfl, rfl⟩

namespace ListSys

/-- A call, or the owner of a node writing its size. -/
inductive StatStep where
  | call (c : Call)
  | fill (node size : Nat)
  deriving DecidableEq, Repr

def statNext (s : ListSys) : StatStep → ListSys
  | .call c => s.next c
  | .fill node size => { s with mem := s.mem.setDataSize node size }

def statMachine (mem : Memory) : Machine ListSys StatStep := ⟨init mem, statNext⟩

/-- Calls as allowed, and sizes written only to nodes that are not on the list. -/
def StatAllowed (s : ListSys) : StatStep → Prop
  | .call c => s.Allowed c
  | .fill node _ => node ∉ s.seq

instance (s : ListSys) (x : StatStep) : Decidable (s.StatAllowed x) := by
  cases x <;> unfold StatAllowed <;> infer_instance

variable (s : ListSys)

/-- The sum of the sizes of the nodes on the list. -/
def dataSizes : Nat := (s.seq.map fun p => (s.mem p).dataSize).sum

/-- The `int` fields `sduNum` and `sduBytes` are the number of nodes and the sum of their sizes.  The model's
counters do not wrap; as every update adds or subtracts, an `int` field is the counter reduced to 32 bits. -/
def Exact : Prop :=
  s.list.sduNum.bmod (2 ^ 32) = s.seq.length ∧ s.list.sduBytes.bmod (2 ^ 32) = s.dataSizes

/-- The number and the sum are values of an `int`. -/
def Fits : Prop := s.seq.length < 2 ^ 31 ∧ s.dataSizes < 2 ^ 31

/-- The step is not a removal, and with a node that it appends number and sum fit. -/
def Counted : StatStep → Prop
  | .call ⟨_, .pushBack node⟩ =>
    s.seq.length + 1 < 2 ^ 31 ∧ s.dataSizes + (s.mem node).dataSize < 2 ^ 31
  | .call ⟨_, .popFront⟩ => True
  | .call ⟨_, .remove _⟩ => False
  | .fill _ _ => True

instance (x : StatStep) : Decidable (s.Counted x) := by
  unfold Counted
  split <;> infer_instance

/-- What the steps without a removal keep. -/
structure CountsKept : Prop where
  kept : s.Kept
  sduNum : s.list.sduNum = s.seq.length
  sduBytes : s.list.sduBytes = s.dataSizes

variable {s}

/-- A counter that does not wrap is its 32-bit value exactly if it fits. -/
theorem bmod_eq_iff (n : Nat) : (n : Int).bmod (2 ^ 32) = n ↔ n < 2 ^ 31 := by
  rw [Int.bmod_eq_iff (by decide)]
  constructor
  · rintro ⟨-, hlt, -⟩
    omega
  · intro h
    exact ⟨by omega, by omega, by simp⟩

theorem CountsKept.exact_iff (K : s.CountsKept) : s.Exact ↔ s.Fits := by
  unfold Exact Fits
  rw [K.sduNum, K.sduBytes, bmod_eq_iff, bmod_eq_iff]

theorem countsKept_init (mem : Memory) : (init mem).CountsKept := ⟨kept_init mem, rfl, rfl⟩

/-- Sizes are the same in a memory with the same data. -/
theorem sum_dataSize_congr {m m' : Memory} {seq : List Nat}
    (h : ∀ p ∈ seq, (m' p).dataSize = (m p).dataSize) :
    (seq.map fun p => (m' p).dataSize).sum = (seq.map fun p => (m p).dataSize).sum := by
  rw [List.map_congr_left h]

theorem dataSizes_pushBack (c node : Nat) :
    (s.next ⟨c, .pushBack node⟩).dataSizes = s.dataSizes + (s.mem node).dataSize := by
  unfold dataSizes next
  dsimp only
  rw [List.map_append, List.sum_append, List.map_singleton, List.sum_singleton,
    (sameData_pushBack s.mem s.list node node).2,
    sum_dataSize_congr fun p _ => (sameData_pushBack s.mem s.list node p).2]

theorem dataSizes_popFront (c : Nat) :
    (s.next ⟨c, .popFront⟩).dataSizes = (s.seq.tail.map fun p => (s.mem p).dataSize).sum :=
  sum_dataSize_congr fun p _ => (sameData_popFront s.mem s.list p).2

theorem CountsKept.fill (K : s.CountsKept) {node size : Nat} (hx : s.StatAllowed (.fill node size)) :
    (s.statNext (.fill node size)).CountsKept := by
  have hlinks : Header.Holds (s.mem.setDataSize node size) s.list s.seq := by
    have hlinked := K.kept.linked
    unfold Header.Holds at hlinked ⊢
    rwa [Memory.prev_setDataSize, Memory.next_setDataSize]
  have hsizes : (s.statNext (.fill node size)).dataSizes = s.dataSizes := by
    apply sum_dataSize_congr
    intro p hp
    apply Memory.dataSize_setDataSize_of_ne
    rintro rfl
    exact hx hp
  refine ⟨⟨hlinks, K.kept.in_order, K.kept.conserved⟩, K.sduNum, ?_⟩
  rw [hsizes]
  exact K.sduBytes

theorem CountsKept.pushBack (K : s.CountsKept) {core : Nat} {node : Nat}
    (hx : s.StatAllowed (.call ⟨core, .pushBack node⟩)) :
    (s.statNext (.call ⟨core, .pushBack node⟩)).CountsKept := by
  obtain ⟨hnum, hbytes⟩ := listPushBack_counts s.mem s.list node
  refine ⟨kept_next (c := ⟨core, .pushBack node⟩) K.kept hx, ?_, ?_⟩
  · calc (s.next ⟨core, .pushBack node⟩).list.sduNum = s.list.sduNum + 1 := hnum
      _ = ((s.seq ++ [node]).length : Int) := by
        rw [K.sduNum, List.length_append, List.length_singleton]
        omega
  · calc (s.next ⟨core, .pushBack node⟩).list.sduBytes = s.list.sduBytes + (s.mem node).dataSize := hbytes
      _ = ((s.next ⟨core, .pushBack node⟩).dataSizes : Int) := by
        rw [dataSizes_pushBack, K.sduBytes]
        omega

theorem CountsKept.popFront (K : s.CountsKept) {core : Nat} (hx : s.StatAllowed (.call ⟨core, .popFront⟩)) :
    (s.statNext (.call ⟨core, .popFront⟩)).CountsKept := by
  have hlinked := K.kept.linked
  have hnum := K.sduNum
  have hbytes := K.sduBytes
  unfold dataSizes at hbytes
  refine ⟨kept_next (c := ⟨core, .popFront⟩) K.kept hx, ?_, ?_⟩
  · cases hseq : s.seq with
    | nil =>
      rw [hseq] at hlinked hnum
      simpa [statNext, ListSys.next, Header.popFront_nil hlinked, hseq] using hnum
    | cons node rest =>
      rw [hseq] at hlinked
      rw [hseq, List.length_cons] at hnum
      calc (s.next ⟨core, .popFront⟩).list.sduNum = s.list.sduNum - 1 :=
            (listPopFront_counts s.mem s.list hlinked.head_eq).1
        _ = ((s.next ⟨core, .popFront⟩).seq.length : Int) := by
          have htail : (s.next ⟨core, .popFront⟩).seq = rest := by simp [ListSys.next, hseq]
          rw [htail]
          omega
  · change (s.next ⟨core, .popFront⟩).list.sduBytes = ((s.next ⟨core, .popFront⟩).dataSizes : Int)
    rw [dataSizes_popFront]
    cases hseq : s.seq with
    | nil =>
      rw [hseq] at hlinked hbytes
      simpa [ListSys.next, Header.popFront_nil hlinked, hseq] using hbytes
    | cons node rest =>
      rw [hseq] at hlinked hbytes
      rw [List.map_cons, List.sum_cons] at hbytes
      calc (s.next ⟨core, .popFront⟩).list.sduBytes = s.list.sduBytes - (s.mem node).dataSize :=
            (listPopFront_counts s.mem s.list hlinked.head_eq).2
        _ = (((node :: rest).tail.map fun p => (s.mem p).dataSize).sum : Int) := by
          rw [List.tail_cons]
          omega

/-- **One step without a removal.** -/
theorem CountsKept.next (K : s.CountsKept) {x : StatStep} (hx : s.StatAllowed x)
    (hno : ∀ c node, x ≠ .call ⟨c, .remove node⟩) : (s.statNext x).CountsKept := by
  cases x with
  | fill node size => exact K.fill hx
  | call c =>
    obtain ⟨core, op⟩ := c
    cases op with
    | pushBack node => exact K.pushBack hx
    | popFront => exact K.popFront hx
    | remove node => exact absurd rfl (hno core node)

theorem CountsKept.next_of_counted (K : s.CountsKept) {x : StatStep} (hx : s.StatAllowed x)
    (hc : s.Counted x) : (s.statNext x).CountsKept := by
  apply K.next hx
  rintro c node rfl
  exact hc

/-- **One step** from an exact state leads to one exactly if it is counted. -/
theorem exact_next_iff (K : s.CountsKept) (hfits : s.Fits) {x : StatStep} (hx : s.StatAllowed x) :
    (s.statNext x).Exact ↔ s.Counted x := by
  cases x with
  | fill node size =>
    have K' := K.next_of_counted hx trivial
    have hsizes : (s.statNext (.fill node size)).dataSizes = s.dataSizes := by
      have hbytes := K'.sduBytes
      have hsame : (s.statNext (.fill node size)).list.sduBytes = s.list.sduBytes := rfl
      have hbytes' := K.sduBytes
      omega
    rw [K'.exact_iff]
    refine ⟨fun _ => trivial, fun _ => ⟨hfits.1, ?_⟩⟩
    rw [hsizes]
    exact hfits.2
  | call c =>
    obtain ⟨core, op⟩ := c
    cases op with
    | pushBack node =>
      have K' : (s.next ⟨core, .pushBack node⟩).CountsKept := K.next hx (by simp)
      change (s.next ⟨core, .pushBack node⟩).Exact ↔ _
      rw [K'.exact_iff]
      unfold Fits Counted
      rw [dataSizes_pushBack]
      simp [ListSys.next]
    | popFront =>
      have K' : (s.next ⟨core, .popFront⟩).CountsKept := K.next_of_counted (x := .call ⟨core, .popFront⟩)
        hx trivial
      change (s.next ⟨core, .popFront⟩).Exact ↔ _
      rw [K'.exact_iff]
      refine ⟨fun _ => trivial, fun _ => ⟨?_, ?_⟩⟩
      · have hlen : (s.next ⟨core, .popFront⟩).seq.length = s.seq.length - 1 := List.length_tail
        have := hfits.1
        omega
      · rw [dataSizes_popFront]
        have hle : (s.seq.tail.map fun p => (s.mem p).dataSize).sum ≤ s.dataSizes := by
          unfold dataSizes
          cases s.seq with
          | nil => exact Nat.le_refl _
          | cons p rest =>
            rw [List.tail_cons, List.map_cons, List.sum_cons]
            omega
        exact hle.trans_lt hfits.2
    | remove node =>
      refine ⟨fun hexact => ?_, fun h => h.elim⟩
      -- The node is gone and the counter still has it.
      have hmem : node ∈ s.seq := hx
      have hlen : (s.next ⟨core, .remove node⟩).seq.length = s.seq.length - 1 := List.length_erase_of_mem hmem
      have hpos := List.length_pos_of_mem hmem
      have hnum : (s.next ⟨core, .remove node⟩).list.sduNum = s.seq.length :=
        (listRemove_counts s.mem s.list node).1.trans K.sduNum
      have hbmod := hexact.1
      change (s.next ⟨core, .remove node⟩).list.sduNum.bmod (2 ^ 32) =
        ((s.next ⟨core, .remove node⟩).seq.length : Int) at hbmod
      rw [hnum, (bmod_eq_iff _).mpr hfits.1, hlen] at hbmod
      omega

/-- **The statistics of a list.**  For every memory and every run: the counters are exact in every state of
the run exactly if no step removes a node and number and sum fit an `int` at every append. -/
theorem list_statistics_iff (mem : Memory) (xs : List StatStep) (h : (statMachine mem).Meets StatAllowed xs) :
    (∀ pre post, xs = pre ++ post → ((statMachine mem).run pre).Exact) ↔
      (statMachine mem).Meets Counted xs := by
  have hkept : ∀ ys, (statMachine mem).Meets (fun s x => s.StatAllowed x ∧ s.Counted x) ys →
      ((statMachine mem).run ys).CountsKept ∧ ((statMachine mem).run ys).Fits := by
    apply Machine.invariant (M := statMachine mem) (P := fun s => s.CountsKept ∧ s.Fits)
    · exact ⟨countsKept_init mem, by simp [statMachine, init, Fits, dataSizes]⟩
    · rintro s x ⟨K, hfits⟩ ⟨hx, hc⟩
      have K' := K.next_of_counted hx hc
      exact ⟨K', K'.exact_iff.mp ((exact_next_iff K hfits hx).mpr hc)⟩
  induction xs using List.reverseRecOn with
  | nil =>
    refine ⟨fun _ => Machine.Meets.nil _, fun _ pre post heq => ?_⟩
    obtain ⟨rfl, -⟩ := List.append_eq_nil_iff.mp heq.symm
    obtain ⟨K, hfits⟩ := hkept [] (Machine.Meets.nil _)
    exact K.exact_iff.mpr hfits
  | append_singleton xs x ih =>
    obtain ⟨hxs, hx⟩ := Machine.meets_concat.mp h
    have ih := ih hxs
    constructor
    · intro hexact
      have hcounted := ih.mp fun pre post heq => hexact pre (post ++ [x]) (by simp [heq])
      obtain ⟨K, hfits⟩ := hkept xs (hxs.and hcounted)
      have hlast := hexact (xs ++ [x]) [] (by simp)
      rw [Machine.run_concat] at hlast
      exact Machine.meets_concat.mpr ⟨hcounted, (exact_next_iff K hfits hx).mp hlast⟩
    · intro hcounted pre post heq
      obtain ⟨hcounted, hc⟩ := Machine.meets_concat.mp hcounted
      obtain ⟨K, hfits⟩ := hkept xs (hxs.and hcounted)
      rcases post.eq_nil_or_concat with rfl | ⟨post', y, rfl⟩
      · rw [List.append_nil] at heq
        rw [← heq, Machine.run_concat]
        exact (exact_next_iff K hfits hx).mpr hc
      · have heq' : xs ++ [x] = (pre ++ post') ++ [y] := by simpa using heq
        exact ih.mpr hcounted pre post' (List.append_inj' heq' rfl).1

/-- Two nodes of 1360 bytes are filled in and appended, and one is popped. -/
def twoSdus : List StatStep :=
  [.fill 0 1360, .call ⟨0, .pushBack 0⟩, .fill 24 1360, .call ⟨1, .pushBack 24⟩, .call ⟨0, .popFront⟩]

theorem list_statistics_twoSdus : ((statMachine fun _ => ⟨none, none, 0, 0⟩).run twoSdus).Exact :=
  (list_statistics_iff _ twoSdus (by decide)).mpr (by decide) twoSdus [] (by simp)

/-- A node is appended and removed: the list is empty, and the counters have one node. -/
theorem list_remove_does_not_count :
    ¬ ((statMachine fun _ => ⟨none, none, 0, 1360⟩).run
      [.call ⟨0, .pushBack 0⟩, .call ⟨0, .remove 0⟩]).Exact := by
  unfold Exact
  decide

end ListSys

end Rlc

end CachePool
