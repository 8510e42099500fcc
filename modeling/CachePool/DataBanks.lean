import CachePool.Lib.Machine
import CachePool.Lib.Skew
import CachePool.Pkg

/-!
# The skewed, folded data banks of a cache controller (`cachepool_tile`: `gen_folded_data_banks`)

A line of a way is split into parts.  The parts of the ways of a group are spread over the group's columns,
one single-ported SRAM for each column and bank, in which the lines are folded; a column serves one part in a
cycle, writes first.  The controller's signals are one set for each word of each way.

* `partReq` … `partBe`, `selPart`, `bankReq` … `bankBe` — what each column is asked for and what it serves.
* `anyOtherWriteInCol`, `gnt` — the grant, computed from the writes alone.
* `selPart_of_write`, `selPart_of_read` — in a cycle with reads of at most one way and writes of at most one
  other way in a group, what a column serves.
* `grant_iff_performed` — a read is granted exactly if it is performed, on its cell.
* `folded_banks_refine` — every run against a memory of ways, lines and parts without columns.
-/

set_option autoImplicit false

namespace CachePool

namespace DataBanks

/-- The parameters of `cachepool_tile`; the assertion `CheckFoldWayGroup` is part of them. -/
structure Cfg where
  l1AssoPerCtrl : Nat
  foldWayGroup : Nat
  l1BankFactor : Nat
  numWordPerLine : Nat
  /-- `L1CacheWayEntry / L1BankFactor`, the lines of a way in one bank. -/
  depth : Nat
  checkFoldWayGroup : 0 < (if foldWayGroup = 0 then if 4 ≤ l1AssoPerCtrl then 4 else 2 else foldWayGroup) ∧
    (if foldWayGroup = 0 then if 4 ≤ l1AssoPerCtrl then 4 else 2 else foldWayGroup) ∣ l1AssoPerCtrl

/-- A part of a line: its words' bytes. -/
abbrev Cell := Nat → Nat → BitVec 8

/-- A write with byte enables. -/
def Cell.write (c data : Cell) (be : Nat → Nat → Bool) : Cell := fun w i => if be w i then data w i else c w i

namespace Cfg

variable (P : Cfg)

/-- `EffectiveFoldWayGroup`, with `DefaultFoldWayGroup` for 0. -/
def effectiveFoldWayGroup : Nat :=
  if P.foldWayGroup = 0 then if 4 ≤ P.l1AssoPerCtrl then 4 else 2 else P.foldWayGroup

def partSplit : Nat := P.effectiveFoldWayGroup

def numDataBankPerWay : Nat := P.numWordPerLine * P.l1BankFactor

def wordsPerPart : Nat := P.numWordPerLine / P.partSplit

def foldedDataDepth : Nat := P.depth * P.partSplit

/-- `FlatIdx` of word `w` of a part. -/
def flatIdx (way bankSel part w : Nat) : Nat :=
  way * P.numDataBankPerWay + (bankSel * P.numWordPerLine + part * P.wordsPerPart) + w

/-- `ColIdx` of way `WayIdx = group * EffectiveFoldWayGroup + way`. -/
def colIdx (way part : Nat) : Nat :=
  way / P.effectiveFoldWayGroup * P.effectiveFoldWayGroup +
    (way % P.effectiveFoldWayGroup + part) % P.effectiveFoldWayGroup

/-- `mapped_way`. -/
def mappedWay (col pp : Nat) : Nat :=
  col / P.effectiveFoldWayGroup * P.effectiveFoldWayGroup +
    (col + P.effectiveFoldWayGroup - pp) % P.effectiveFoldWayGroup

end Cfg

variable (P : Cfg)

/-- One cycle of the controller's data bank signals, by `FlatIdx`. -/
structure Inputs where
  req : Nat → Bool
  we : Nat → Bool
  addr : Nat → Fin P.depth
  wdata : Nat → Nat → BitVec 8
  be : Nat → Nat → Bool

/-- The SRAMs by column, bank and row, and their output registers. -/
structure State where
  mem : Nat → Nat → Nat → Cell
  rdata : Nat → Nat → Cell

variable {P} (x : Inputs P) (s : State)

/-! ## The parts of a column -/

/-- A signal of `part` in a column is driven by the way whose `ColIdx` the column is. -/
def driven {α : Type} (P : Cfg) (col part : Nat) (f : Nat → α) (d : α) : α :=
  match (List.range P.l1AssoPerCtrl).find? (fun way => P.colIdx way part == col) with
  | some way => f way
  | none => d

/-- Some word of the way's part has the signal. -/
def anyWord (sig : Nat → Bool) (way bankSel part : Nat) : Bool :=
  (List.range P.wordsPerPart).any fun w => sig (P.flatIdx way bankSel part w)

def partReq (col bankSel part : Nat) : Bool :=
  driven P col part (fun way => anyWord (P := P) x.req way bankSel part) false

def partWe (col bankSel part : Nat) : Bool :=
  driven P col part (fun way => anyWord (P := P) x.we way bankSel part) false

/-- The line is that of the part's first word. -/
def partAddr (col bankSel part : Nat) : Nat :=
  driven P col part
    (fun way => ((x.addr (P.flatIdx way bankSel part 0)).val * P.partSplit + part) %
      2 ^ clog2 P.foldedDataDepth) 0

def partWdata (col bankSel part : Nat) : Cell :=
  driven P col part (fun way w => x.wdata (P.flatIdx way bankSel part w)) fun _ _ => 0

def partBe (col bankSel part : Nat) : Nat → Nat → Bool :=
  driven P col part (fun way w => x.be (P.flatIdx way bankSel part w)) fun _ _ => false

/-- `any_other_write_in_col`. -/
def anyOtherWriteInCol (way col bankSel : Nat) : Bool :=
  (List.range P.partSplit).any fun pp => P.mappedWay col pp != way && partWe x col bankSel pp

/-- `l1_data_bank_gnt` of word `w`. -/
def gnt (way bankSel part w : Nat) : Bool :=
  x.we (P.flatIdx way bankSel part w) || !anyOtherWriteInCol x way (P.colIdx way part) bankSel

/-! ## The column's choice (`select_skewed_part`) -/

/-- `sel_part_idx` with `sel_found`: the first part that writes, or else the first with a request. -/
def selPart (col bankSel : Nat) : Option Nat :=
  match (List.range P.partSplit).find? (partWe x col bankSel) with
  | some part => some part
  | none => (List.range P.partSplit).find? (partReq x col bankSel)

def bankReq (col bankSel : Nat) : Bool := (selPart x col bankSel).isSome

def bankWe (col bankSel : Nat) : Bool :=
  match selPart x col bankSel with
  | some part => partWe x col bankSel part
  | none => false

def bankAddr (col bankSel : Nat) : Nat :=
  match selPart x col bankSel with
  | some part => partAddr x col bankSel part
  | none => 0

def bankWdata (col bankSel : Nat) : Cell :=
  match selPart x col bankSel with
  | some part => partWdata x col bankSel part
  | none => fun _ _ => 0

def bankBe (col bankSel : Nat) : Nat → Nat → Bool :=
  match selPart x col bankSel with
  | some part => partBe x col bankSel part
  | none => fun _ _ => false

/-- One cycle of all SRAMs: a write changes its row, a read shows its row in the next cycle. -/
def next : State where
  mem := fun col bankSel row =>
    if bankReq x col bankSel && bankWe x col bankSel && row == bankAddr x col bankSel then
      (s.mem col bankSel row).write (bankWdata x col bankSel) (bankBe x col bankSel)
    else s.mem col bankSel row
  rdata := fun col bankSel =>
    if bankReq x col bankSel && !bankWe x col bankSel then s.mem col bankSel (bankAddr x col bankSel)
    else s.rdata col bankSel

/-- `l1_data_bank_rdata` of word `w`, with its bytes. -/
def rdata (P : Cfg) (s : State) (way bankSel part w : Nat) : Nat → BitVec 8 :=
  s.rdata (P.colIdx way part) bankSel w

/-- `SimInit = "zeros"`. -/
def reset : State := ⟨fun _ _ _ _ _ => 0, fun _ _ _ _ => 0⟩

/-- The data banks of one controller. -/
def banks (P : Cfg) : Machine State (Inputs P) := ⟨reset, fun s x => next x s⟩

/-! ## Accesses of words and of parts -/

/-- Word `w` of the part is read. -/
def isRead (way bankSel part w : Nat) : Bool :=
  x.req (P.flatIdx way bankSel part w) && !x.we (P.flatIdx way bankSel part w)

/-- Word `w` of the part is written. -/
def isWrite (way bankSel part w : Nat) : Bool := x.we (P.flatIdx way bankSel part w)

/-- The row of part `part` of a line. -/
def namedRow (P : Cfg) (line part : Nat) : Nat := Skew.fold P.partSplit line part

/-- The column of the word's part serves a read or a write of the cell that the word's address names. -/
def Performed (way bankSel part w : Nat) (we : Bool) : Prop :=
  bankReq x (P.colIdx way part) bankSel = true ∧ bankWe x (P.colIdx way part) bankSel = we ∧
    bankAddr x (P.colIdx way part) bankSel = namedRow P (x.addr (P.flatIdx way bankSel part w)) part

/-- The way reads in the bank. -/
def wayReads (way bankSel : Nat) : Bool :=
  (List.range P.partSplit).any fun part => (List.range P.wordsPerPart).any fun w =>
    isRead x way bankSel part w

/-- The way writes in the bank. -/
def wayWrites (way bankSel : Nat) : Bool :=
  (List.range P.partSplit).any fun part => (List.range P.wordsPerPart).any fun w =>
    isWrite x way bankSel part w

/-- At most one way of each group does it. -/
def OneWay (P : Cfg) (does : Nat → Bool) : Prop :=
  ∀ way < P.l1AssoPerCtrl, ∀ way' < P.l1AssoPerCtrl,
    way / P.effectiveFoldWayGroup = way' / P.effectiveFoldWayGroup →
      does way = true → does way' = true → way = way'

instance (P : Cfg) (does : Nat → Bool) : Decidable (OneWay P does) :=
  inferInstanceAs (Decidable (∀ way < _, ∀ way' < _, _ = _ → _ = _ → _ = _ → way = way'))

/-- In each bank of each group: reads of at most one way and writes of at most one other way. -/
structure OneEach : Prop where
  reads : ∀ b < P.l1BankFactor, OneWay P fun way => wayReads x way b
  writes : ∀ b < P.l1BankFactor, OneWay P fun way => wayWrites x way b
  apart : ∀ b < P.l1BankFactor, ∀ way < P.l1AssoPerCtrl,
    wayReads x way b = true → wayWrites x way b = false

/-- The accessed words of a part name one line, which is on the address of the part's first word. -/
def SameLine : Prop :=
  ∀ way < P.l1AssoPerCtrl, ∀ b < P.l1BankFactor, ∀ part < P.partSplit, ∀ w < P.wordsPerPart,
    (isRead x way b part w || isWrite x way b part w) = true →
      x.addr (P.flatIdx way b part w) = x.addr (P.flatIdx way b part 0)

/-! ## A memory of ways, lines and parts -/

/-- By way, bank, line and part. -/
abbrev Plain := Nat → Nat → Nat → Nat → Cell

/-- One cycle: a part with a write stores its enabled bytes in its line. -/
def Plain.next (m : Plain) (x : Inputs P) : Plain := fun way bankSel line part =>
  if anyWord (P := P) x.we way bankSel part && line == (x.addr (P.flatIdx way bankSel part 0)).val then
    (m way bankSel line part).write (fun w => x.wdata (P.flatIdx way bankSel part w))
      (fun w => x.be (P.flatIdx way bankSel part w))
  else m way bankSel line part

def Plain.run (xs : List (Inputs P)) : Plain := xs.foldl Plain.next fun _ _ _ _ _ _ => 0

/-- The cell in which the banks keep a part of a line of a way. -/
def view (P : Cfg) (s : State) : Plain := fun way bankSel line part =>
  s.mem (P.colIdx way part) bankSel (namedRow P line part)

/-! ## The skew of the source -/

namespace Cfg

theorem fold_pos (P : Cfg) : 0 < P.effectiveFoldWayGroup := P.checkFoldWayGroup.1

theorem fold_dvd (P : Cfg) : P.effectiveFoldWayGroup ∣ P.l1AssoPerCtrl := P.checkFoldWayGroup.2

theorem colIdx_eq (P : Cfg) (way part : Nat) : P.colIdx way part = Skew.column P.partSplit way part := rfl

/-- The grant's inverse of the skew is the library's. -/
theorem mappedWay_eq (P : Cfg) {col pp : Nat} (hpp : pp < P.partSplit) :
    P.mappedWay col pp = Skew.wayAt P.partSplit col pp := by
  have hsplit : col + P.partSplit - pp =
      (col % P.partSplit + P.partSplit - pp) + col / P.partSplit * P.partSplit := by
    have := Nat.div_add_mod' col P.partSplit
    omega
  unfold mappedWay Skew.wayAt
  rw [show P.effectiveFoldWayGroup = P.partSplit from rfl, hsplit, Nat.add_mul_mod_self_right]

theorem foldedDataDepth_le (P : Cfg) : P.depth * P.partSplit ≤ 2 ^ clog2 P.foldedDataDepth :=
  le_two_pow_clog2 _

end Cfg

variable {x s} {way way' col b part part' w : Nat}

/-- **A column's part is driven by one way.** -/
theorem driven_colIdx {α : Type} (f : Nat → α) (d : α) (hway : way < P.l1AssoPerCtrl)
    (hpart : part < P.partSplit) : driven P (P.colIdx way part) part f d = f way := by
  unfold driven
  cases hfind : (List.range P.l1AssoPerCtrl).find? (fun v => P.colIdx v part == P.colIdx way part) with
  | none =>
    have hnone := List.find?_eq_none.mp hfind way (List.mem_range.mpr hway)
    simp at hnone
  | some v =>
    have hv := List.find?_some hfind
    have hcol : P.colIdx v part = P.colIdx way part := by simpa using hv
    rw [P.colIdx_eq, P.colIdx_eq, Skew.column_inj hpart] at hcol
    simp [hcol]

/-- Every part of a column is some way's. -/
theorem exists_way (hcol : col < P.l1AssoPerCtrl) (hpart : part < P.partSplit) :
    ∃ way < P.l1AssoPerCtrl, P.colIdx way part = col ∧ P.mappedWay col part = way := by
  refine ⟨P.mappedWay col part, ?_, ?_, rfl⟩
  · rw [P.mappedWay_eq hpart]
    exact Skew.wayAt_lt P.fold_dvd P.fold_pos hcol
  · rw [P.mappedWay_eq hpart]
    exact Skew.column_wayAt hpart

theorem colIdx_lt (part : Nat) (hway : way < P.l1AssoPerCtrl) : P.colIdx way part < P.l1AssoPerCtrl :=
  Skew.column_lt P.fold_dvd P.fold_pos hway

/-- Ways that share a column are of one group. -/
theorem group_eq_of_colIdx (h : P.colIdx way part = P.colIdx way' part') :
    way / P.effectiveFoldWayGroup = way' / P.effectiveFoldWayGroup := by
  have hpos : 0 < P.partSplit := P.fold_pos
  have hdiv := congrArg (· / P.partSplit) h
  simp only [P.colIdx_eq, Skew.column_div hpos] at hdiv
  exact hdiv

theorem anyWord_iff {sig : Nat → Bool} :
    anyWord (P := P) sig way b part = true ↔ ∃ w < P.wordsPerPart, sig (P.flatIdx way b part w) = true := by
  simp [anyWord]

theorem wayReads_iff :
    wayReads x way b = true ↔ ∃ part < P.partSplit, ∃ w < P.wordsPerPart, isRead x way b part w = true := by
  simp [wayReads]

theorem wayWrites_iff :
    wayWrites x way b = true ↔ ∃ part < P.partSplit, ∃ w < P.wordsPerPart, isWrite x way b part w = true := by
  simp [wayWrites]

section

variable (hway : way < P.l1AssoPerCtrl) (hpart : part < P.partSplit)
include hway hpart

theorem partWe_colIdx : partWe x (P.colIdx way part) b part = anyWord (P := P) x.we way b part :=
  driven_colIdx _ _ hway hpart

theorem partReq_colIdx : partReq x (P.colIdx way part) b part = anyWord (P := P) x.req way b part :=
  driven_colIdx _ _ hway hpart

theorem partAddr_colIdx :
    partAddr x (P.colIdx way part) b part = namedRow P (x.addr (P.flatIdx way b part 0)) part := by
  unfold partAddr
  rw [driven_colIdx _ _ hway hpart]
  apply Nat.mod_eq_of_lt
  exact (Skew.fold_lt (x.addr _).isLt hpart).trans_le P.foldedDataDepth_le

end

/-- A part that writes in a column writes there for a way. -/
theorem writes_of_partWe (hcol : col < P.l1AssoPerCtrl) (hpart : part < P.partSplit)
    (h : partWe x col b part = true) :
    ∃ way < P.l1AssoPerCtrl, P.colIdx way part = col ∧ P.mappedWay col part = way ∧
      wayWrites x way b = true := by
  obtain ⟨way, hway, rfl, hmapped⟩ := exists_way hcol hpart
  rw [partWe_colIdx hway hpart] at h
  obtain ⟨w, hw, hwe⟩ := anyWord_iff.mp h
  exact ⟨way, hway, rfl, hmapped, wayWrites_iff.mpr ⟨part, hpart, w, hw, hwe⟩⟩

/-! ## What a column serves -/

theorem find?_eq_some_of_unique {n i : Nat} {q : Nat → Bool} (hi : i < n) (hq : q i = true)
    (huniq : ∀ j < n, q j = true → j = i) : (List.range n).find? q = some i := by
  cases hfind : (List.range n).find? q with
  | none =>
    have hnone := List.find?_eq_none.mp hfind i (List.mem_range.mpr hi)
    exact absurd hq hnone
  | some j =>
    have hj := List.mem_range.mp (List.mem_of_find?_eq_some hfind)
    rw [huniq j hj (List.find?_some hfind)]

theorem selPart_of_find (h : (List.range P.partSplit).find? (partWe x col b) = some part) :
    selPart x col b = some part := by
  unfold selPart
  rw [h]

/-- **A column with a write serves it.** -/
theorem selPart_of_write (h : OneEach x) (hb : b < P.l1BankFactor) (hway : way < P.l1AssoPerCtrl)
    (hpart : part < P.partSplit) (hwe : anyWord (P := P) x.we way b part = true) :
    selPart x (P.colIdx way part) b = some part := by
  apply selPart_of_find
  apply find?_eq_some_of_unique hpart
  · rwa [partWe_colIdx hway hpart]
  · intro part' hpart' hwe'
    obtain ⟨way', hway', hcol, -, hwrites'⟩ := writes_of_partWe (colIdx_lt part hway) hpart' hwe'
    obtain ⟨w, hw, hww⟩ := anyWord_iff.mp hwe
    have hwrites : wayWrites x way b = true := wayWrites_iff.mpr ⟨part, hpart, w, hw, hww⟩
    have heq := h.writes b hb way' hway' way hway (group_eq_of_colIdx hcol) hwrites' hwrites
    subst heq
    exact Skew.part_of_column hpart' hpart hcol

/-- The columns of a reading way have no write of the way itself. -/
theorem OneEach.not_own_write (h : OneEach x) (hb : b < P.l1BankFactor) (hway : way < P.l1AssoPerCtrl)
    (hpart : part < P.partSplit) (hreads : wayReads x way b = true) :
    anyWord (P := P) x.we way b part = false := by
  by_contra hwe
  obtain ⟨w, hw, hww⟩ := anyWord_iff.mp (Bool.not_eq_false _ ▸ hwe)
  have hwrites : wayWrites x way b = true := wayWrites_iff.mpr ⟨part, hpart, w, hw, hww⟩
  rw [h.apart b hb way hway hreads] at hwrites
  cases hwrites

/-- **The grant of a read** says that no part of its column writes. -/
theorem gnt_of_read_iff (h : OneEach x) (hb : b < P.l1BankFactor) (hway : way < P.l1AssoPerCtrl)
    (hreads : wayReads x way b = true) (hread : isRead x way b part w = true) :
    gnt x way b part w = true ↔ ∀ p < P.partSplit, partWe x (P.colIdx way part) b p = false := by
  have hwe : x.we (P.flatIdx way b part w) = false := by
    unfold isRead at hread
    rw [Bool.and_eq_true, Bool.not_eq_true'] at hread
    exact hread.2
  unfold gnt anyOtherWriteInCol
  rw [hwe, Bool.false_or, Bool.not_eq_true', List.any_eq_false]
  constructor
  · intro hnone p hp
    by_contra hpw
    have hpw : partWe x (P.colIdx way part) b p = true := by simpa using hpw
    obtain ⟨way', hway', hcol, hmapped, hwrites⟩ := writes_of_partWe (colIdx_lt part hway) hp hpw
    -- A part of the way itself does not write, so the grant sees another way's write.
    have hne : way' ≠ way := by
      rintro rfl
      rw [h.apart b hb way' hway hreads] at hwrites
      cases hwrites
    have := hnone p (List.mem_range.mpr hp)
    simp [hmapped, hne, hpw] at this
  · intro hnone p hp
    simp [hnone p (List.mem_range.mp hp)]

/-- **A column without a write serves the reading way's part.** -/
theorem selPart_of_read (h : OneEach x) (hb : b < P.l1BankFactor) (hway : way < P.l1AssoPerCtrl)
    (hpart : part < P.partSplit) (hw : w < P.wordsPerPart) (hread : isRead x way b part w = true)
    (hnone : ∀ p < P.partSplit, partWe x (P.colIdx way part) b p = false) :
    selPart x (P.colIdx way part) b = some part := by
  have hreads : wayReads x way b = true := wayReads_iff.mpr ⟨part, hpart, w, hw, hread⟩
  have hfind : (List.range P.partSplit).find? (partWe x (P.colIdx way part) b) = none := by
    rw [List.find?_eq_none]
    intro p hp
    simp [hnone p (List.mem_range.mp hp)]
  unfold selPart
  rw [hfind]
  apply find?_eq_some_of_unique hpart
  · rw [partReq_colIdx hway hpart]
    exact anyWord_iff.mpr ⟨w, hw, (Bool.and_eq_true _ _ ▸ hread).1⟩
  · intro part' hpart' hreq'
    obtain ⟨way', hway', hcol, -⟩ := exists_way (P := P) (colIdx_lt part hway) hpart'
    have hwe' := hnone part' hpart'
    rw [← hcol, partReq_colIdx hway' hpart'] at hreq'
    rw [← hcol, partWe_colIdx hway' hpart'] at hwe'
    obtain ⟨v, hv, hvreq⟩ := anyWord_iff.mp hreq'
    have hvwe : x.we (P.flatIdx way' b part' v) = false := by
      by_contra hne
      have : anyWord (P := P) x.we way' b part' = true := anyWord_iff.mpr ⟨v, hv, by simpa using hne⟩
      rw [hwe'] at this
      cases this
    have hreads' : wayReads x way' b = true :=
      wayReads_iff.mpr ⟨part', hpart', v, hv, by simp [isRead, hvreq, hvwe]⟩
    have heq := h.reads b hb way' hway' way hway (group_eq_of_colIdx hcol) hreads' hreads
    subst heq
    exact Skew.part_of_column hpart' hpart hcol

/-! ## Grants and performed accesses -/

theorem performed_of_selPart (hway : way < P.l1AssoPerCtrl) (hpart : part < P.partSplit)
    (hsel : selPart x (P.colIdx way part) b = some part)
    (hline : x.addr (P.flatIdx way b part w) = x.addr (P.flatIdx way b part 0)) :
    Performed x way b part w (anyWord (P := P) x.we way b part) := by
  refine ⟨?_, ?_, ?_⟩
  · simp [bankReq, hsel]
  · simp only [bankWe, hsel]
    exact partWe_colIdx hway hpart
  · simp only [bankAddr, hsel]
    rw [partAddr_colIdx hway hpart, hline]

/-- **Writes** are granted and performed. -/
theorem write_performed (h : OneEach x) (hline : SameLine x) (hb : b < P.l1BankFactor)
    (hway : way < P.l1AssoPerCtrl) (hpart : part < P.partSplit) (hw : w < P.wordsPerPart)
    (hwrite : isWrite x way b part w = true) :
    gnt x way b part w = true ∧ Performed x way b part w true := by
  have hwe : anyWord (P := P) x.we way b part = true := anyWord_iff.mpr ⟨w, hw, hwrite⟩
  have hperf := performed_of_selPart (w := w) hway hpart (selPart_of_write h hb hway hpart hwe)
    (hline way hway b hb part hpart w hw (by simp [hwrite]))
  rw [hwe] at hperf
  refine ⟨?_, hperf⟩
  unfold isWrite at hwrite
  simp [gnt, hwrite]

/-- **Reads** are granted exactly if they are performed. -/
theorem grant_iff_performed (h : OneEach x) (hline : SameLine x) (hb : b < P.l1BankFactor)
    (hway : way < P.l1AssoPerCtrl) (hpart : part < P.partSplit) (hw : w < P.wordsPerPart)
    (hread : isRead x way b part w = true) :
    gnt x way b part w = true ↔ Performed x way b part w false := by
  have hreads : wayReads x way b = true := wayReads_iff.mpr ⟨part, hpart, w, hw, hread⟩
  rw [gnt_of_read_iff h hb hway hreads hread]
  constructor
  · intro hnone
    have hperf := performed_of_selPart (w := w) hway hpart (selPart_of_read h hb hway hpart hw hread hnone)
      (hline way hway b hb part hpart w hw (by simp [hread]))
    rwa [h.not_own_write hb hway hpart hreads] at hperf
  · rintro ⟨-, hwe, -⟩ p hp
    by_contra hpw
    have hpw : partWe x (P.colIdx way part) b p = true := by simpa using hpw
    cases hfind : (List.range P.partSplit).find? (partWe x (P.colIdx way part) b) with
    | none =>
      have := List.find?_eq_none.mp hfind p (List.mem_range.mpr hp)
      exact this hpw
    | some q =>
      have hq : partWe x (P.colIdx way part) b q = true := List.find?_some hfind
      unfold bankWe at hwe
      rw [selPart_of_find hfind] at hwe
      simp [hq] at hwe

/-! ## Refinement -/

/-- **One cycle of the banks is one cycle of the plain memory.** -/
theorem view_next (h : OneEach x) (hb : b < P.l1BankFactor) (hway : way < P.l1AssoPerCtrl)
    (hpart : part < P.partSplit) (line : Nat) :
    view P (next x s) way b line part = (view P s).next x way b line part := by
  unfold view Plain.next next
  cases hwe : anyWord (P := P) x.we way b part with
  | true =>
    have hsel := selPart_of_write h hb hway hpart hwe
    have hreq : bankReq x (P.colIdx way part) b = true := by simp [bankReq, hsel]
    have hbwe : bankWe x (P.colIdx way part) b = true := by
      simp only [bankWe, hsel]
      rw [partWe_colIdx hway hpart, hwe]
    have haddr : bankAddr x (P.colIdx way part) b = namedRow P (x.addr (P.flatIdx way b part 0)) part := by
      simp only [bankAddr, hsel]
      exact partAddr_colIdx hway hpart
    have hdata : bankWdata x (P.colIdx way part) b = fun w => x.wdata (P.flatIdx way b part w) := by
      simp only [bankWdata, hsel]
      exact driven_colIdx _ _ hway hpart
    have hbe : bankBe x (P.colIdx way part) b = fun w => x.be (P.flatIdx way b part w) := by
      simp only [bankBe, hsel]
      exact driven_colIdx _ _ hway hpart
    have hrow : (namedRow P line part == namedRow P (x.addr (P.flatIdx way b part 0)) part) =
        (line == (x.addr (P.flatIdx way b part 0)).val) := by
      rw [Bool.eq_iff_iff, beq_iff_eq, beq_iff_eq]
      exact ⟨fun heq => (Skew.fold_inj hpart hpart heq).1, fun heq => by rw [heq]⟩
    simp only [hreq, hbwe, haddr, hrow, hdata, hbe, Bool.true_and]
  | false =>
    -- Whatever the column writes is of another part, so in another row.
    have hkeep : (bankReq x (P.colIdx way part) b && bankWe x (P.colIdx way part) b &&
        namedRow P line part == bankAddr x (P.colIdx way part) b) = false := by
      by_contra hne
      have hall : (bankReq x (P.colIdx way part) b && bankWe x (P.colIdx way part) b &&
          namedRow P line part == bankAddr x (P.colIdx way part) b) = true := Bool.not_eq_false _ ▸ hne
      simp only [Bool.and_eq_true, beq_iff_eq] at hall
      obtain ⟨⟨hreq, hbwe⟩, hrow⟩ := hall
      obtain ⟨part', hsel⟩ := Option.isSome_iff_exists.mp hreq
      simp only [bankWe, bankAddr, hsel] at hbwe hrow
      have hpart' : part' < P.partSplit := by
        unfold selPart at hsel
        split at hsel
        · rename_i q hq
          cases hsel
          exact List.mem_range.mp (List.mem_of_find?_eq_some hq)
        · exact List.mem_range.mp (List.mem_of_find?_eq_some hsel)
      obtain ⟨way', hway', hcol, -⟩ := exists_way (P := P) (colIdx_lt part hway) hpart'
      rw [← hcol, partAddr_colIdx hway' hpart'] at hrow
      obtain ⟨-, rfl⟩ := Skew.fold_inj hpart hpart' hrow
      rw [partWe_colIdx hway hpart, hwe] at hbwe
      cases hbwe
    simp only [hkeep, Bool.false_and, Bool.false_eq_true, ↓reduceIte]

/-- **A granted read** shows the named cell in the next cycle. -/
theorem rdata_of_grant (h : OneEach x) (hline : SameLine x) (hb : b < P.l1BankFactor)
    (hway : way < P.l1AssoPerCtrl) (hpart : part < P.partSplit) (hw : w < P.wordsPerPart)
    (hread : isRead x way b part w = true) (hgnt : gnt x way b part w = true) :
    rdata P (next x s) way b part w = view P s way b (x.addr (P.flatIdx way b part w)) part w := by
  obtain ⟨hreq, hwe, haddr⟩ := (grant_iff_performed h hline hb hway hpart hw hread).mp hgnt
  unfold rdata next view
  simp only [hreq, hwe, haddr, Bool.not_false, Bool.and_self, ↓reduceIte]

/-- A cycle in which each bank of each group has reads of at most one way and writes of at most one other way,
with one line for the accessed words of a part. -/
structure Orderly (x : Inputs P) : Prop where
  oneEach : OneEach x
  sameLine : SameLine x

theorem view_run {xs : List (Inputs P)} (h : (banks P).Meets (fun _ x => Orderly x) xs)
    (hb : b < P.l1BankFactor) (hway : way < P.l1AssoPerCtrl) (hpart : part < P.partSplit) (line : Nat) :
    view P ((banks P).run xs) way b line part = Plain.run xs way b line part := by
  induction xs using List.reverseRecOn with
  | nil => rfl
  | append_singleton xs x ih =>
    obtain ⟨hxs, hx⟩ := Machine.meets_concat.mp h
    have hplain : Plain.run (xs ++ [x]) = (Plain.run xs).next x := by simp [Plain.run]
    rw [Machine.run_concat, hplain]
    calc view P (next x ((banks P).run xs)) way b line part
        = (view P ((banks P).run xs)).next x way b line part := view_next hx.oneEach hb hway hpart line
      _ = (Plain.run xs).next x way b line part := by
        unfold Plain.next
        rw [ih hxs]

/-- **The data banks are a plain memory of ways, lines and parts.**  The cells of the columns are the parts of
the lines of the ways, one to one.  In every run of orderly cycles the cells hold what the plain memory holds;
in its last cycle every written word is granted and performed on its cell, every read word is granted exactly
if it is performed on its cell, and a granted one shows the plain memory's content to its way and part in the
next cycle. -/
theorem folded_banks_refine (P : Cfg) :
    Set.BijOn (fun c : Nat × Nat × Nat => (P.colIdx c.1 c.2.2, namedRow P c.2.1 c.2.2))
        {c | c.1 < P.l1AssoPerCtrl ∧ c.2.1 < P.depth ∧ c.2.2 < P.partSplit}
        {y | y.1 < P.l1AssoPerCtrl ∧ y.2 < P.foldedDataDepth} ∧
      ∀ (xs : List (Inputs P)) (x : Inputs P), (banks P).Meets (fun _ x => Orderly x) (xs ++ [x]) →
        ∀ way < P.l1AssoPerCtrl, ∀ b < P.l1BankFactor, ∀ part < P.partSplit,
          (∀ line < P.depth,
            view P ((banks P).run (xs ++ [x])) way b line part = Plain.run (xs ++ [x]) way b line part) ∧
          ∀ w < P.wordsPerPart,
            (isWrite x way b part w = true → gnt x way b part w = true ∧ Performed x way b part w true) ∧
            (isRead x way b part w = true →
              (gnt x way b part w = true ↔ Performed x way b part w false) ∧
              (gnt x way b part w = true →
                rdata P ((banks P).run (xs ++ [x])) way b part w =
                  Plain.run xs way b (x.addr (P.flatIdx way b part w)) part w)) := by
  refine ⟨Skew.bijOn_place P.fold_dvd P.fold_pos, fun xs x hmeets way hway b hb part hpart => ?_⟩
  obtain ⟨hxs, hx⟩ := Machine.meets_concat.mp hmeets
  refine ⟨fun line _ => view_run hmeets hb hway hpart line, fun w hw =>
    ⟨?_, fun hread => ⟨?_, fun hgnt => ?_⟩⟩⟩
  · exact write_performed hx.oneEach hx.sameLine hb hway hpart hw
  · exact grant_iff_performed hx.oneEach hx.sameLine hb hway hpart hw hread
  · rw [Machine.run_concat]
    calc rdata P (next x ((banks P).run xs)) way b part w
        = view P ((banks P).run xs) way b (x.addr (P.flatIdx way b part w)) part w :=
          rdata_of_grant hx.oneEach hx.sameLine hb hway hpart hw hread hgnt
      _ = Plain.run xs way b (x.addr (P.flatIdx way b part w)) part w := by
        rw [view_run hxs hb hway hpart]

/-- Two ways in one group of two, lines of four words in two parts, two lines and one bank. -/
def twoWays : Cfg := ⟨2, 2, 1, 4, 2, by decide⟩

/-- Way 0 writes word 0 of part 0 of line 1 and way 1 reads word 0 of its parts, all in line 1: part 0 of way
1 is in the other column, part 1 in the written one. -/
def writeAndRead : Inputs twoWays where
  req i := i = 0 || i = 4 || i = 6
  we i := i = 0
  addr _ := ⟨1, by decide⟩
  wdata _ _ := 0x5A
  be i _ := i = 0

/-- The read of part 0 is granted and that of part 1, whose column is written, is not. -/
theorem folded_banks_refine_writeAndRead :
    (banks twoWays).Meets (fun _ x => Orderly x) [writeAndRead] ∧
      (gnt writeAndRead 1 0 0 0 = true ∧ Performed writeAndRead 1 0 0 0 false) ∧
      (gnt writeAndRead 1 0 1 0 = false ∧ ¬ Performed writeAndRead 1 0 1 0 false) := by
  have horderly : Orderly writeAndRead := by
    refine ⟨⟨?_, ?_, ?_⟩, ?_⟩
    · decide
    · decide
    · decide
    · unfold SameLine
      decide
  have hmeets : (banks twoWays).Meets (fun _ x => Orderly x) ([] ++ [writeAndRead]) :=
    Machine.meets_concat.mpr ⟨Machine.Meets.nil _, horderly⟩
  have hrefine := (folded_banks_refine twoWays).2 [] writeAndRead hmeets 1 (by decide) 0 (by decide)
  have hfirst := ((hrefine 0 (by decide)).2 0 (by decide)).2 (by decide)
  have hsecond := ((hrefine 1 (by decide)).2 0 (by decide)).2 (by decide)
  refine ⟨hmeets, ⟨by decide, hfirst.1.mp (by decide)⟩, by decide, fun hperf => ?_⟩
  have hgnt := hsecond.1.mpr hperf
  revert hgnt
  decide

/-- Way 0 reads two words of one part, of different lines. -/
def twoLines : Inputs twoWays where
  req i := i = 0 || i = 1
  we _ := false
  addr i := if i = 1 then ⟨1, by decide⟩ else ⟨0, by decide⟩
  wdata _ _ := 0
  be _ _ := false

/-- Both reads are granted, and the second word is read from the first word's line. -/
theorem two_lines_in_one_part :
    OneEach twoLines ∧ isRead twoLines 0 0 0 1 = true ∧ gnt twoLines 0 0 0 1 = true ∧
      ¬ Performed twoLines 0 0 0 1 false := by
  refine ⟨⟨by decide, by decide, by decide⟩, by decide, by decide, ?_⟩
  unfold Performed
  decide

end DataBanks

end CachePool
