import Mathlib.Algebra.Group.Nat.Defs
import Mathlib.Data.Option.Basic

/-!
# The ELF reader (`hardware/tb/dpi/elfloader.cpp`)

`read_elf` checks a file and hands its loadable segments to `sections` and `mems`, from which the testbench
fetches them one at a time.  What an assertion refuses, and what would be read outside the file, has no
result.

* `Layout` — where the two classes of files have their fields; `parse` — what `read_elf` reads and checks.
* `Dpi` — the variables of the reader; `readElf`, `getSection` and `readSection` — its functions.
* `parse_segments` — the segments of a file lie within it.
-/

set_option autoImplicit false

namespace CachePool

namespace Preload

abbrev Byte := BitVec 8

/-! ## Fields -/

/-- A number of the given bytes, the lowest first. -/
def littleEndian : List Byte → Nat
  | [] => 0
  | b :: bs => b.toNat + 2 ^ 8 * littleEndian bs

/-- The field of `n` bytes at offset `o`. -/
def field (file : List Byte) (o n : Nat) : Option Nat :=
  if o + n ≤ file.length then some (littleEndian ((file.drop o).take n)) else none

/-- `strcmp(s, t) == 0`, with `s` the text at `o`. -/
def strEq (file : List Byte) (o : Nat) : List Byte → Option Bool
  | [] => file[o]?.map fun b => b == 0
  | c :: t => file[o]?.bind fun b => if b = c then strEq file (o + 1) t else some false

/-- `strnlen(s, maxLen) < maxLen`. -/
def terminated : List Byte → Nat → Option Bool
  | _, 0 => some false
  | [], _ + 1 => none
  | b :: s, n + 1 => if b = 0 then some true else terminated s n

/-- `".strtab"`. -/
def strtabName : List Byte := [0x2e, 0x73, 0x74, 0x72, 0x74, 0x61, 0x62]

/-- `".shstrtab"`. -/
def shstrtabName : List Byte := [0x2e, 0x73, 0x68, 0x73, 0x74, 0x72, 0x74, 0x61, 0x62]

/-- `".symtab"`. -/
def symtabName : List Byte := [0x2e, 0x73, 0x79, 0x6d, 0x74, 0x61, 0x62]

/-- Where a class of files has the fields that are read: the bytes of an address, the offsets in `Ehdr`, those
in `Phdr` and its size, those in `Shdr` and its size, and the size of `Sym`. -/
structure Layout where
  word : Nat
  ePhoff : Nat
  eShoff : Nat
  ePhnum : Nat
  eShnum : Nat
  eShstrndx : Nat
  pOffset : Nat
  pPaddr : Nat
  pFilesz : Nat
  pMemsz : Nat
  phSize : Nat
  shOffset : Nat
  shSize : Nat
  shdrSize : Nat
  symSize : Nat

/-- `Elf32_Ehdr`, `Elf32_Phdr`, `Elf32_Shdr` and `Elf32_Sym`. -/
def elf32 : Layout := ⟨4, 28, 32, 44, 48, 50, 4, 12, 16, 20, 32, 16, 20, 40, 16⟩

/-- `Elf64_Ehdr`, `Elf64_Phdr`, `Elf64_Shdr` and `Elf64_Sym`. -/
def elf64 : Layout := ⟨8, 32, 40, 56, 60, 62, 8, 24, 32, 40, 56, 24, 32, 64, 24⟩

/-- `IS_ELF32` and `IS_ELF64`. -/
def layoutOf (file : List Byte) : Option Layout :=
  match file.take 5 with
  | [0x7f, 0x45, 0x4c, 0x46, 1] => some elf32
  | [0x7f, 0x45, 0x4c, 0x46, 2] => some elf64
  | _ => none

/-! ## The tables of a file -/

/-- A loadable segment. -/
structure Segment where
  offset : Nat
  paddr : Nat
  filesz : Nat
  memsz : Nat
  deriving DecidableEq, Repr

/-- What a segment has in the file. -/
def Segment.data (file : List Byte) (s : Segment) : List Byte := (file.drop s.offset).take s.filesz

namespace Layout

variable (L : Layout) (file : List Byte)

/-- Program header `i`: its segment, if it is one that is loaded.  `zeros` is resized for every `PT_LOAD`,
which fails where the length is above what a vector can have; `write` counts in an `int`. -/
def segment (phoff i : Nat) : Option (Option Segment) := do
  let ph := phoff + i * L.phSize
  let type ← field file ph 4
  let offset ← field file (ph + L.pOffset) L.word
  let paddr ← field file (ph + L.pPaddr) L.word
  let filesz ← field file (ph + L.pFilesz) L.word
  let memsz ← field file (ph + L.pMemsz) L.word
  if type = 1 ∧ memsz ≠ 0 then
    guard ((memsz + 2 ^ (8 * L.word) - filesz) % 2 ^ (8 * L.word) < 2 ^ 63)
    if filesz ≠ 0 then
      guard ((offset + filesz) % 2 ^ (8 * L.word) ≤ file.length)
      guard (offset + filesz ≤ file.length ∧ filesz < 2 ^ 31)
      return some ⟨offset, paddr, filesz, memsz⟩
    else return none
  else return none

/-- The loop over the program headers from number `i` on. -/
def segments (phoff : Nat) : Nat → Nat → Option (List Segment)
  | 0, _ => some []
  | n + 1, i => do
    let s ← L.segment file phoff i
    let rest ← segments phoff n (i + 1)
    return s.toList ++ rest

/-- `sh[i].sh_name`, `sh[i].sh_type`, `sh[i].sh_offset` and `sh[i].sh_size`. -/
def sectionHeader (shoff i : Nat) : Option (Nat × Nat × Nat × Nat) := do
  let sh := shoff + i * L.shdrSize
  return (← field file sh 4, ← field file (sh + 4) 4, ← field file (sh + L.shOffset) L.word,
    ← field file (sh + L.shSize) L.word)

/-- `max_len`, an `unsigned`. -/
def maxLen (size name : Nat) : Nat := (size + 2 ^ 32 - name) % 2 ^ 32

/-- The loop over the section headers from number `i` on, with the names at `tab` in a table of `size` bytes;
it finds `strtabidx` and `symtabidx`. -/
def sectionNames (shoff tab size : Nat) : Nat → Nat → Nat × Nat → Option (Nat × Nat)
  | 0, _, idx => some idx
  | n + 1, i, idx => do
    let (name, type, _, _) ← L.sectionHeader file shoff i
    if type &&& 0x11 ≠ 0 then
      if ¬ (← strEq file (tab + name) strtabName) then
        if ¬ (← strEq file (tab + name) shstrtabName) then
          guard ((← terminated (file.drop (tab + name)) (maxLen size name)) = true)
    if type &&& 1 ≠ 0 then sectionNames shoff tab size n (i + 1) idx
    else
      let strtab := if ← strEq file (tab + name) strtabName then i else idx.1
      let symtab := if ← strEq file (tab + name) symtabName then i else idx.2
      sectionNames shoff tab size n (i + 1) (strtab, symtab)

/-- The loop over the symbols from number `i` on, with the names at `tab` in a table of `size` bytes. -/
def symbols (sym tab size : Nat) : Nat → Nat → Option Unit
  | 0, _ => some ()
  | n + 1, i => do
    let name ← field file (sym + i * L.symSize) 4
    guard (name < size)
    guard ((← terminated (file.drop (tab + name)) (maxLen size name)) = true)
    symbols sym tab size n (i + 1)

/-- What follows the loop over the program headers. -/
def checkSections : Option Unit := do
  let shoff ← field file L.eShoff L.word
  let shnum ← field file L.eShnum 2
  let shstrndx ← field file L.eShstrndx 2
  guard ((shoff + shnum * L.shdrSize) % 2 ^ 64 ≤ file.length)
  guard (shstrndx < shnum)
  let (_, _, tab, size) ← L.sectionHeader file shoff shstrndx
  guard ((tab + size) % 2 ^ (8 * L.word) ≤ file.length)
  let (strtabidx, symtabidx) ← L.sectionNames file shoff tab size shnum 0 (0, 0)
  if strtabidx ≠ 0 ∧ symtabidx ≠ 0 then
    let (_, _, strtab, strSize) ← L.sectionHeader file shoff strtabidx
    let (_, _, sym, symBytes) ← L.sectionHeader file shoff symtabidx
    L.symbols file sym strtab strSize (symBytes / L.symSize) 0

end Layout

/-- What `read_elf` finds: `entry`, and the segments in the order of their headers. -/
structure Elf where
  entry : Nat
  segments : List Segment
  deriving DecidableEq, Repr

/-- The checks of `read_elf`. -/
def parse (file : List Byte) : Option Elf := do
  guard (64 ≤ file.length)
  let L ← layoutOf file
  let phoff ← field file L.ePhoff L.word
  let phnum ← field file L.ePhnum 2
  let entry ← field file 24 L.word
  guard ((phoff + phnum * L.phSize) % 2 ^ 64 ≤ file.length)
  let segments ← L.segments file phoff phnum 0
  L.checkSections file
  return ⟨entry, segments⟩

/-! ## The functions the testbench calls -/

/-- `sections`, `mems`, `entry` and `sectionHeaderindex`. -/
structure Dpi where
  sections : List (Nat × Nat)
  mems : Nat → Option (List Byte)
  entry : Nat
  sectionIndex : Nat

/-- The variables at the start. -/
def Dpi.init : Dpi := ⟨[], fun _ => none, 0, 0⟩

/-- `write`; what `mems` has at an address stays. -/
def Dpi.write (d : Dpi) (address : Nat) (buf : List Byte) : Dpi :=
  { d with mems := fun a => (d.mems a).or (if a = address then some buf else none) }

/-- `sections.push_back` and `write` of a segment. -/
def Dpi.load (file : List Byte) (d : Dpi) (s : Segment) : Dpi :=
  { d with sections := d.sections ++ [(s.paddr, s.memsz)] }.write s.paddr (s.data file)

/-- `read_elf`. -/
def readElf (file : List Byte) (d : Dpi) : Option Dpi :=
  (parse file).map fun e => e.segments.foldl (Dpi.load file) { d with entry := e.entry }

/-- `get_section`. -/
def Dpi.getSection (d : Dpi) : Option ((Nat × Nat) × Dpi) :=
  d.sections[d.sectionIndex]?.map fun s => (s, { d with sectionIndex := d.sectionIndex + 1 })

/-- `read_section` into a new buffer of `n` bytes. -/
def Dpi.readSection (d : Dpi) (address n : Nat) : Option (List Byte) :=
  (d.mems address).bind fun mem =>
    if mem.length ≤ n then some (mem ++ List.replicate (n - mem.length) 0) else none

/-! ## Segments -/

variable {L : Layout} {file : List Byte}

/-- What a segment that is loaded meets. -/
structure Segment.Loadable (file : List Byte) (s : Segment) : Prop where
  fits : s.offset + s.filesz ≤ file.length
  memsz : s.memsz ≠ 0

theorem Layout.segment_loadable {phoff i : Nat} {s : Segment} (h : L.segment file phoff i = some (some s)) :
    s.Loadable file := by
  simp only [segment, Option.bind_eq_bind, Option.bind_eq_some_iff] at h
  obtain ⟨type, _, offset, _, paddr, _, filesz, _, memsz, _, h⟩ := h
  split at h
  · rename_i hload
    obtain ⟨_, _, h⟩ := Option.bind_eq_some_iff.mp h
    split at h
    · obtain ⟨_, _, h⟩ := Option.bind_eq_some_iff.mp h
      obtain ⟨_, hguard, h⟩ := Option.bind_eq_some_iff.mp h
      have hfits := ((Option.guard_eq_some' ()).mp hguard).1
      cases h
      exact ⟨hfits, hload.2⟩
    · cases h
  · cases h

theorem Layout.segments_loadable {phoff n i : Nat} {l : List Segment}
    (h : L.segments file phoff n i = some l) : ∀ s ∈ l, s.Loadable file := by
  induction n generalizing i l with
  | zero =>
    cases h
    simp
  | succ n ih =>
    simp only [segments, Option.bind_eq_bind, Option.bind_eq_some_iff] at h
    obtain ⟨s, hs, rest, hrest, h⟩ := h
    cases h
    intro t ht
    rcases List.mem_append.mp ht with ht | ht
    · exact segment_loadable (by rw [hs, Option.mem_toList.mp ht])
    · exact ih hrest t ht

/-- **The segments of a file lie within it**, and have a place in memory. -/
theorem parse_segments {e : Elf} (h : parse file = some e) : ∀ s ∈ e.segments, s.Loadable file := by
  simp only [parse, Option.bind_eq_bind, Option.bind_eq_some_iff] at h
  obtain ⟨_, _, L, _, phoff, _, phnum, _, entry, _, _, _, l, hl, _, _, h⟩ := h
  cases h
  exact Layout.segments_loadable hl

theorem Segment.Loadable.data_length {s : Segment} (h : s.Loadable file) :
    (s.data file).length = s.filesz := by
  have hfits := h.fits
  rw [data, List.length_take, List.length_drop]
  omega

/-! ## The reader after a file -/

variable {segs : List Segment} {d : Dpi} {s : Segment}

theorem foldl_load_sections : (segs.foldl (Dpi.load file) d).sections =
    d.sections ++ segs.map fun s => (s.paddr, s.memsz) := by
  induction segs generalizing d with
  | nil => simp
  | cons t segs ih =>
    rw [List.foldl_cons, ih, List.map_cons]
    simp [Dpi.load, Dpi.write]

theorem foldl_load_sectionIndex : (segs.foldl (Dpi.load file) d).sectionIndex = d.sectionIndex := by
  induction segs generalizing d with
  | nil => rfl
  | cons t segs ih => exact ih

/-- `mems` keeps what it has. -/
theorem foldl_load_mems_of_some {a : Nat} {buf : List Byte} (h : d.mems a = some buf) :
    (segs.foldl (Dpi.load file) d).mems a = some buf := by
  induction segs generalizing d with
  | nil => exact h
  | cons t segs ih =>
    refine ih ?_
    simp [Dpi.load, Dpi.write, h]

/-- Segments at addresses of their own are all found, also when the file is read again. -/
theorem foldl_load_mems (hapart : segs.Pairwise fun s t => s.paddr ≠ t.paddr) (hs : s ∈ segs)
    (h : d.mems s.paddr = none ∨ d.mems s.paddr = some (s.data file)) :
    (segs.foldl (Dpi.load file) d).mems s.paddr = some (s.data file) := by
  induction segs generalizing d with
  | nil => cases hs
  | cons t segs ih =>
    obtain ⟨hne, hapart⟩ := List.pairwise_cons.mp hapart
    rw [List.foldl_cons]
    rcases List.mem_cons.mp hs with rfl | hs
    · refine foldl_load_mems_of_some ?_
      rcases h with h | h <;> simp [Dpi.load, Dpi.write, h]
    · refine ih hapart hs ?_
      have hother : (d.load file t).mems s.paddr = d.mems s.paddr := by
        simp [Dpi.load, Dpi.write, (hne s hs).symm]
      rwa [hother]

/-- A segment fills the front of its buffer. -/
theorem readSection_of_mems {n : Nat} (h : d.mems s.paddr = some (s.data file))
    (hn : (s.data file).length ≤ n) :
    ∃ buffer, d.readSection s.paddr n = some buffer ∧ buffer.length = n ∧
      ∀ i, buffer.getD i 0 = (s.data file).getD i 0 := by
  refine ⟨s.data file ++ List.replicate (n - (s.data file).length) 0, ?_, ?_, ?_⟩
  · rw [Dpi.readSection, h, Option.bind_some, if_pos hn]
  · rw [List.length_append, List.length_replicate, Nat.add_sub_cancel' hn]
  · intro i
    simp only [List.getD_eq_getElem?_getD, List.getElem?_append, List.getElem?_replicate]
    split
    · rfl
    · rw [List.getElem?_eq_none (by omega)]
      split <;> rfl

end Preload

end CachePool
