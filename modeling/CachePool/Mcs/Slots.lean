import CachePool.Mcs.Lock

/-!
# The binding table in memory (`mcs_bindings` in `mcs_lock.c`)

The table of the lock module, now as the `H * S` cells that it has in memory, with whatever lies behind them:
the index of a hart is not compared with `MCS_MAX_HARTS` before it selects a row, and the search of a row
begins at slot number *h*, not 0.

* `Cells`, `bindAcquireSlot`, `bindReleaseSlot` — memory, and the binding and unbinding of a slot.
* `held` — who has bound which cell to which lock and not unbound it.
* `Proper` — what an acquire is to do: a cell of the table that nobody holds, and one at all if the hart holds
  fewer than `S`.
* `Kept` — in the table, the cells in use are those that are held, each once and in the part of the row that
  its hart searches.
* `slots_proper_iff` — every acquire of a run is proper exactly if it is by a hart of the table, and hart *h*
  holds fewer than `S - h` slots or is hart 0.
* `Represents` — the table of the lock module in memory, its two searches and its binding step.
-/

set_option autoImplicit false

namespace CachePool

namespace Mcs

namespace Slots

/-- `MCS_MAX_HARTS`. -/
def mcsMaxHarts : Nat := 4

/-- `MCS_TLS_SLOTS`. -/
def mcsTlsSlots : Nat := mcsMaxHarts * 2

variable {Λ : Type}

/-- `mcs_binding_core_t` without its queue node. -/
structure Binding (Λ : Type) where
  lock : Option Λ
  inUse : Bool
  deriving DecidableEq, Repr

/-- A slot that a hart has bound. -/
structure Held (Λ : Type) where
  hart : Nat
  cell : Nat
  lock : Λ
  deriving DecidableEq, Repr

/-- Memory from `mcs_bindings` on, in cells of the size of a binding: the table is the first `H * S`
of them. -/
structure Cells (Λ : Type) where
  cells : Nat → Binding Λ
  held : List (Held Λ)

/-- A call, or a write to what lies behind the table. -/
inductive Op (Λ : Type) where
  | acquire (h : Nat) (L : Λ)
  | release (h : Nat) (L : Λ)
  | behind (cell : Nat) (content : Binding Λ)
  deriving DecidableEq, Repr

/-- The loop over a row: `for (int i = h; i < MCS_TLS_SLOTS; ++i)`. -/
def search (S h : Nat) (found : Nat → Bool) : Option Nat :=
  (List.range S).find? fun i => decide (h ≤ i) && found i

variable (H S : Nat) (s : Cells Λ)

/-- The cell of `mcs_bindings[h][i]`. -/
def cellOf (h i : Nat) : Nat := h * S + i

/-- The search of `mcs_bind_acquire_slot`. -/
def freeSlot (h : Nat) : Option Nat := search S h fun i => !(s.cells (cellOf S h i)).inUse

/-- `mcs_bind_acquire_slot`; without a free slot it spins. -/
def bindAcquireSlot (h : Nat) (L : Λ) : Cells Λ :=
  match freeSlot S s h with
  | some i =>
    { cells := Function.update s.cells (cellOf S h i) ⟨some L, true⟩
      held := s.held ++ [⟨h, cellOf S h i, L⟩] }
  | none => s

/-- `mcs_bind_find`, and `mcs_bind_release_slot` of what it has found. -/
def bindReleaseSlot [DecidableEq Λ] (h : Nat) (L : Λ) : Cells Λ :=
  match search S h fun i =>
      (s.cells (cellOf S h i)).inUse && decide ((s.cells (cellOf S h i)).lock = some L) with
  | some i =>
    { cells := Function.update s.cells (cellOf S h i) ⟨none, false⟩
      held := s.held.filter fun x => decide (x.cell ≠ cellOf S h i) }
  | none => s

def next [DecidableEq Λ] : Op Λ → Cells Λ
  | .acquire h L => bindAcquireSlot S s h L
  | .release h L => bindReleaseSlot S s h L
  | .behind cell content =>
    if H * S ≤ cell then { s with cells := Function.update s.cells cell content } else s

/-- The table is clear at the start; what lies behind it is not. -/
def machine [DecidableEq Λ] (rest : Nat → Binding Λ) : Machine (Cells Λ) (Op Λ) :=
  ⟨⟨fun c => if c < H * S then ⟨none, false⟩ else rest c, []⟩, fun s op => next H S s op⟩

/-- The slots that hart `h` holds. -/
def heldBy (h : Nat) : List (Held Λ) := s.held.filter fun x => decide (x.hart = h)

/-- An acquire takes a cell of the table that nobody holds, and takes one if the hart holds fewer than its row
has. -/
def Proper : Op Λ → Prop
  | .acquire h _ =>
    (∀ i ∈ freeSlot S s h, cellOf S h i < H * S ∧ ∀ x ∈ s.held, x.cell ≠ cellOf S h i) ∧
      ((heldBy s h).length < S → (freeSlot S s h).isSome = true)
  | _ => True

/-- The hart has a row, and a free slot in the part of it that it searches; hart 0 searches all of it. -/
def Served : Op Λ → Prop
  | .acquire h _ => h < H ∧ (h = 0 ∨ (heldBy s h).length < S - h)
  | _ => True

/-! ## The search -/

variable {H S s} {h i : Nat} {L : Λ} {found : Nat → Bool}

theorem search_some (hs : search S h found = some i) : h ≤ i ∧ i < S ∧ found i = true := by
  have htrue := List.find?_some hs
  have hmem := List.mem_of_find?_eq_some hs
  simp only [Bool.and_eq_true, decide_eq_true_eq] at htrue
  exact ⟨htrue.1, List.mem_range.mp hmem, htrue.2⟩

theorem search_eq_none_iff : search S h found = none ↔ ∀ i, h ≤ i → i < S → found i = false := by
  unfold search
  simp only [List.find?_eq_none, List.mem_range, Bool.and_eq_true, decide_eq_true_eq, not_and,
    Bool.not_eq_true]
  exact ⟨fun hall i hi hlt => hall i hlt hi, fun hall i hlt hi => hall i hi hlt⟩

theorem cellOf_lt (hh : h < H) (hi : i < S) : cellOf S h i < H * S := by
  have hrow := Nat.mul_le_mul_right S (Nat.succ_le_of_lt hh)
  unfold cellOf
  rw [Nat.succ_mul] at hrow
  omega

theorem le_cellOf (hh : H ≤ h) : H * S ≤ cellOf S h i := by
  have hrow := Nat.mul_le_mul_right S hh
  unfold cellOf
  omega

theorem cellOf_inj {h' i' : Nat} (hi : i < S) (hi' : i' < S) (heq : cellOf S h i = cellOf S h' i') :
    h = h' ∧ i = i' := by
  unfold cellOf at heq
  have hS : 0 < S := by omega
  have hdiv : (i + h * S) / S = (i' + h' * S) / S := by rw [Nat.add_comm, heq, Nat.add_comm]
  rw [Nat.add_mul_div_right _ _ hS, Nat.add_mul_div_right _ _ hS, Nat.div_eq_of_lt hi, Nat.div_eq_of_lt hi',
    Nat.zero_add, Nat.zero_add] at hdiv
  subst hdiv
  exact ⟨rfl, by omega⟩

/-! ## What is held -/

/-- **The cells in use are those that are held.** -/
structure Kept (H S : Nat) (s : Cells Λ) : Prop where
  placed : ∀ x ∈ s.held, x.hart < H ∧ ∃ i, x.hart ≤ i ∧ i < S ∧ x.cell = cellOf S x.hart i
  nodup : (s.held.map Held.cell).Nodup
  inUse_iff : ∀ h i, h < H → h ≤ i → i < S →
    ((s.cells (cellOf S h i)).inUse = true ↔ ∃ x ∈ s.held, x.cell = cellOf S h i)

theorem kept_init [DecidableEq Λ] (rest : Nat → Binding Λ) : Kept H S (machine H S rest).init where
  placed := fun x hx => absurd hx List.not_mem_nil
  nodup := List.nodup_nil
  inUse_iff := by
    intro h i hh _ hi
    have hcell : (machine H S rest).init.cells (cellOf S h i) = ⟨none, false⟩ := if_pos (cellOf_lt hh hi)
    rw [hcell]
    constructor
    · exact fun hfalse => absurd hfalse Bool.false_ne_true
    · rintro ⟨x, hx, -⟩
      exact absurd hx List.not_mem_nil

/-- A slot that the search finds is held by nobody. -/
theorem Kept.free (K : Kept H S s) (hh : h < H) (hfree : freeSlot S s h = some i) :
    ∀ x ∈ s.held, x.cell ≠ cellOf S h i := by
  obtain ⟨hle, hlt, hnot⟩ := search_some hfree
  intro x hx heq
  have hused := (K.inUse_iff h i hh hle hlt).mpr ⟨x, hx, heq⟩
  rw [hused] at hnot
  exact absurd hnot (by decide)

theorem Kept.acquire (K : Kept H S s) (hh : h < H) (L : Λ) : Kept H S (bindAcquireSlot S s h L) := by
  unfold bindAcquireSlot
  cases hfree : freeSlot S s h with
  | none => exact K
  | some i =>
    obtain ⟨hle, hlt, -⟩ := search_some hfree
    have hnew := K.free hh hfree
    constructor
    · intro x hx
      rcases List.mem_append.mp hx with hx | hx
      · exact K.placed x hx
      · rw [List.mem_singleton.mp hx]
        exact ⟨hh, i, hle, hlt, rfl⟩
    · rw [List.map_append, List.nodup_append]
      refine ⟨K.nodup, List.nodup_singleton _, ?_⟩
      intro c hc c' hc' heq
      obtain ⟨x, hx, rfl⟩ := List.mem_map.mp hc
      rw [List.map_singleton, List.mem_singleton] at hc'
      exact hnew x hx (heq.trans hc')
    · intro h' i' hh' hle' hlt'
      simp only [List.mem_append, List.mem_singleton]
      by_cases hcell : cellOf S h' i' = cellOf S h i
      · rw [hcell, Function.update_self]
        exact ⟨fun _ => ⟨_, Or.inr rfl, rfl⟩, fun _ => rfl⟩
      · rw [Function.update_of_ne hcell, K.inUse_iff h' i' hh' hle' hlt']
        constructor
        · rintro ⟨x, hx, heq⟩
          exact ⟨x, Or.inl hx, heq⟩
        · rintro ⟨x, hx | rfl, heq⟩
          · exact ⟨x, hx, heq⟩
          · exact absurd heq.symm hcell

theorem Kept.release [DecidableEq Λ] (K : Kept H S s) (h : Nat) (L : Λ) :
    Kept H S (bindReleaseSlot S s h L) := by
  unfold bindReleaseSlot
  split
  · next i hfound =>
    constructor
    · exact fun x hx => K.placed x (List.mem_filter.mp hx).1
    · exact K.nodup.sublist (List.filter_sublist.map Held.cell)
    · intro h' i' hh' hle' hlt'
      simp only [List.mem_filter, decide_eq_true_eq]
      by_cases hcell : cellOf S h' i' = cellOf S h i
      · rw [hcell, Function.update_self]
        constructor
        · exact fun hfalse => absurd hfalse Bool.false_ne_true
        · rintro ⟨x, ⟨-, hne⟩, heq⟩
          exact absurd heq hne
      · rw [Function.update_of_ne hcell, K.inUse_iff h' i' hh' hle' hlt']
        constructor
        · rintro ⟨x, hx, heq⟩
          exact ⟨x, ⟨hx, heq ▸ hcell⟩, heq⟩
        · rintro ⟨x, ⟨hx, -⟩, heq⟩
          exact ⟨x, hx, heq⟩
  · exact K

theorem Kept.behind (K : Kept H S s) {cell : Nat} (hcell : H * S ≤ cell) (content : Binding Λ) :
    Kept H S { s with cells := Function.update s.cells cell content } where
  placed := K.placed
  nodup := K.nodup
  inUse_iff := by
    intro h i hh hle hlt
    have hin := cellOf_lt hh hlt
    have hne : cellOf S h i ≠ cell := by omega
    dsimp only
    rw [Function.update_of_ne hne]
    exact K.inUse_iff h i hh hle hlt

/-- Releases and what happens behind the table keep it whatever they are; an acquire does by a hart of the
table. -/
theorem kept_next [DecidableEq Λ] (K : Kept H S s) {op : Op Λ} (hop : Served H S s op) :
    Kept H S (next H S s op) := by
  cases op with
  | acquire h L => exact K.acquire hop.1 L
  | release h L => exact K.release h L
  | behind cell content =>
    change Kept H S (if H * S ≤ cell then { s with cells := Function.update s.cells cell content } else s)
    split
    · exact K.behind ‹_› content
    · exact K

/-! ## Counting a row -/

/-- Hart `h` holds the slots in use in the part of its row that it searches. -/
theorem Kept.heldBy_perm (K : Kept H S s) (hh : h < H) :
    ((heldBy s h).map Held.cell).Perm
      (((List.range' h (S - h)).filter fun i => (s.cells (cellOf S h i)).inUse).map (cellOf S h)) := by
  rw [List.perm_ext_iff_of_nodup]
  · intro c
    simp only [heldBy, List.mem_map, List.mem_filter, decide_eq_true_eq, List.mem_range'_1]
    constructor
    · rintro ⟨x, ⟨hx, rfl⟩, rfl⟩
      obtain ⟨-, i, hle, hlt, hcell⟩ := K.placed x hx
      exact ⟨i, ⟨⟨hle, by omega⟩, (K.inUse_iff _ i hh hle hlt).mpr ⟨x, hx, hcell⟩⟩, hcell.symm⟩
    · rintro ⟨i, ⟨⟨hle, hlt⟩, hused⟩, rfl⟩
      obtain ⟨x, hx, hcell⟩ := (K.inUse_iff h i hh hle (by omega)).mp hused
      obtain ⟨-, i', -, hlt', hcell'⟩ := K.placed x hx
      have hhart := (cellOf_inj hlt' (by omega) (hcell'.symm.trans hcell)).1
      exact ⟨x, ⟨hx, hhart⟩, hcell⟩
  · exact K.nodup.sublist (List.filter_sublist.map Held.cell)
  · apply List.Nodup.map_on
    · intro i hi i' hi' heq
      have hlt := List.mem_range'_1.mp (List.mem_filter.mp hi).1
      have hlt' := List.mem_range'_1.mp (List.mem_filter.mp hi').1
      exact (cellOf_inj (by omega) (by omega) heq).2
    · exact List.Nodup.filter _ (List.nodup_range' )

theorem Kept.heldBy_length (K : Kept H S s) (hh : h < H) : (heldBy s h).length =
    ((List.range' h (S - h)).filter fun i => (s.cells (cellOf S h i)).inUse).length := by
  have hlen := (K.heldBy_perm hh).length_eq
  rwa [List.length_map, List.length_map] at hlen

theorem Kept.heldBy_le (K : Kept H S s) (hh : h < H) : (heldBy s h).length ≤ S - h := by
  rw [K.heldBy_length hh]
  exact (List.length_filter_le _ _).trans_eq (List.length_range' ..)

/-- A hart of the table finds a slot exactly if it holds fewer than it searches. -/
theorem Kept.isSome_freeSlot (K : Kept H S s) (hh : h < H) :
    (freeSlot S s h).isSome = true ↔ (heldBy s h).length < S - h := by
  have hfull : freeSlot S s h = none ↔ (heldBy s h).length = S - h := by
    let used : Nat → Bool := fun i => (s.cells (cellOf S h i)).inUse
    have hrow : ((List.range' h (S - h)).filter used).length = S - h ↔
        ∀ i ∈ List.range' h (S - h), used i = true := by
      rw [← List.length_filter_eq_length_iff, List.length_range']
    rw [K.heldBy_length hh, hrow]
    unfold freeSlot
    rw [search_eq_none_iff]
    constructor
    · intro hall i hi
      have hlt := List.mem_range'_1.mp hi
      simpa using hall i hlt.1 (by omega)
    · intro hall i hle hlt
      simpa using hall i (List.mem_range'_1.mpr ⟨hle, by omega⟩)
  have hle := K.heldBy_le hh
  rw [← Option.ne_none_iff_isSome, ne_eq, hfull]
  omega

/-! ## Exactly when -/

/-- A hart without a row holds nothing in the table. -/
theorem Kept.heldBy_nil (K : Kept H S s) (hh : H ≤ h) : heldBy s h = [] := by
  apply List.filter_eq_nil_iff.mpr
  intro x hx
  have hrow := (K.placed x hx).1
  simp only [decide_eq_true_eq]
  omega

theorem Kept.proper_iff (K : Kept H S s) (hS : 0 < S) (op : Op Λ) : Proper H S s op ↔ Served H S s op := by
  cases op with
  | acquire h L =>
    simp only [Proper, Served]
    by_cases hh : h < H
    · have hplace : ∀ i ∈ freeSlot S s h, cellOf S h i < H * S ∧ ∀ x ∈ s.held, x.cell ≠ cellOf S h i := by
        intro i hi
        exact ⟨cellOf_lt hh (search_some hi).2.1, K.free hh hi⟩
      have hle := K.heldBy_le hh
      rw [K.isSome_freeSlot hh]
      constructor
      · rintro ⟨-, hfind⟩
        exact ⟨hh, by omega⟩
      · rintro ⟨-, hroom⟩
        exact ⟨hplace, by omega⟩
    · have hnone := K.heldBy_nil (Nat.le_of_not_lt hh)
      constructor
      · rintro ⟨hplace, hfind⟩
        rw [hnone] at hfind
        obtain ⟨i, hi⟩ := Option.isSome_iff_exists.mp (hfind hS)
        have hin := (hplace i hi).1
        have hout := le_cellOf (S := S) (i := i) (Nat.le_of_not_lt hh)
        omega
      · exact fun hserved => absurd hserved.1 hh
  | release h L => exact Iff.rfl
  | behind cell content => exact Iff.rfl

/-- **When the binding table is enough.**  Whatever lies behind the table and is written there: every acquire
of a run takes a free cell of the table, and finds one if its hart holds fewer than `S`, exactly if every
acquire is by a hart with a row, and hart `h` is hart 0 or holds fewer than `S - h`. -/
theorem slots_proper_iff [DecidableEq Λ] (H S : Nat) (hS : 0 < S) (rest : Nat → Binding Λ)
    (xs : List (Op Λ)) :
    (machine H S rest).Meets (Proper H S) xs ↔ (machine H S rest).Meets (Served H S) xs :=
  Machine.meets_congr_upon (kept_init rest) (fun _ op K => K.proper_iff hS op)
    (fun _ _ K hop => kept_next K hop) xs

theorem slots_proper_two :
    (machine mcsMaxHarts mcsTlsSlots fun _ => Binding.mk none false).Meets (Proper mcsMaxHarts mcsTlsSlots)
        [.acquire 0 10, .acquire 3 11, .release 0 10, .acquire 0 12] ↔
      (machine mcsMaxHarts mcsTlsSlots fun _ => Binding.mk none false).Meets (Served mcsMaxHarts mcsTlsSlots)
        [.acquire 0 10, .acquire 3 11, .release 0 10, .acquire 0 12] :=
  slots_proper_iff mcsMaxHarts mcsTlsSlots (by decide) (fun _ => ⟨none, false⟩)
    [.acquire 0 10, .acquire 3 11, .release 0 10, .acquire 0 12]

/-- The first lock of hart 4 is bound behind the table, and the eighth of hart 1 is not bound. -/
theorem slots_improper :
    ¬ (machine mcsMaxHarts mcsTlsSlots fun _ => Binding.mk none false).Meets (Proper mcsMaxHarts mcsTlsSlots)
        [.acquire 4 10] ∧
      ¬ (machine mcsMaxHarts mcsTlsSlots fun _ => Binding.mk none false).Meets
        (Proper mcsMaxHarts mcsTlsSlots)
        [.acquire 1 10, .acquire 1 11, .acquire 1 12, .acquire 1 13, .acquire 1 14, .acquire 1 15,
          .acquire 1 16, .acquire 1 17] := by
  constructor
  · intro h
    have hplace := (h [] (.acquire 4 10) [] rfl).1 4 (by decide)
    exact absurd hplace.1 (by decide)
  · intro h
    have hfind := (h [.acquire 1 10, .acquire 1 11, .acquire 1 12, .acquire 1 13, .acquire 1 14,
      .acquire 1 15, .acquire 1 16] (.acquire 1 17) [] rfl).2 (by decide)
    exact absurd hfind (by decide)

/-! ## The table of the lock module -/

/-- Memory holds the binding table of a state of the lock module. -/
def Represents (t : Sys H S Λ) (s : Cells Λ) : Prop :=
  ∀ (h : Fin H) (i : Fin S), s.cells (cellOf S h i) = ⟨t.lock ⟨h, i⟩, t.inUse ⟨h, i⟩⟩

/-- A search over the slots of the lock module is one over their numbers. -/
theorem search_eq (h : Fin H) (found : Nat → Bool) :
    ((List.finRange S).find? fun i => decide (h.val ≤ i.val) && found i.val).map Fin.val =
      search S h found := by
  unfold search
  rw [← List.map_coe_finRange_eq_range, List.find?_map]
  rfl

theorem Represents.freeSlot_eq [DecidableEq Λ] {t : Sys H S Λ} (R : Represents t s) (h : Fin H) :
    (t.freeSlot h).map Fin.val = freeSlot S s h := by
  unfold freeSlot Sys.freeSlot
  rw [← search_eq]
  simp only [R h _]

/-- The step of the lock module that binds a slot is the one here. -/
theorem Represents.bind [DecidableEq Λ] {t : Sys H S Λ} (R : Represents t s) {h : Fin H}
    {isTry : Bool} {L : Λ} (hpc : t.pc h = .bind isTry L) (call : Call Λ) :
    Represents (t.step h call) (bindAcquireSlot S s h L) := by
  have heq := R.freeSlot_eq h
  unfold Sys.step bindAcquireSlot
  rw [hpc, ← heq]
  cases t.freeSlot h with
  | none => exact R
  | some i =>
    intro h' i'
    by_cases hnode : (⟨h', i'⟩ : Node H S) = ⟨h, i⟩
    · obtain ⟨rfl, rfl⟩ := Node.mk.inj hnode
      simp [Sys.setPc]
    · have hcell : cellOf S h' i' ≠ cellOf S h i := by
        intro hsame
        obtain ⟨hh, hi⟩ := cellOf_inj i'.isLt i.isLt hsame
        exact hnode (Node.mk.injEq .. ▸ ⟨Fin.ext hh, Fin.ext hi⟩)
      simp [Sys.setPc, Function.update_of_ne hcell, Function.update_of_ne hnode, R h' i']

end Slots

end Mcs

end CachePool
