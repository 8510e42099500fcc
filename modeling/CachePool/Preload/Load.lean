import CachePool.Dram
import CachePool.Lib.Shards
import CachePool.Preload.Elf

/-!
# Loading a program into the DRAM channels (`l2_init`, `tb_cachepool`)

Each channel has a block that reads the file again, fetches all segments and keeps the bytes that are its own.
A segment is padded to whole words, so that the padding of one can reach into the next.

* `l2Init` — the block of a channel; `preload` — all blocks, one after the other.
* `dramByte` — what the cluster finds at an address.
* `preload_exact` — for segments in the order of their addresses, the cluster finds the file.
-/

set_option autoImplicit false

namespace CachePool

namespace Preload

variable (D : DramCfg)

/-- The reader, and the contents of the simulated memory of each channel (`i_sim_dram`). -/
structure Sim where
  dpi : Dpi
  dram : Nat → D.AxiAddr → Byte

/-- `nwords * L2BankBeWidth`; `nwords` is an `int`. -/
def bufferBytes (length : D.AxiAddr) : Nat :=
  let nwords := (length.toNat + D.l2BankBeWidth - 1) % 2 ^ max D.spatzAxiAddrWidth 32 / D.l2BankBeWidth
  nwords % 2 ^ 32 * D.l2BankBeWidth % 2 ^ 32

variable {D}

/-- The loop over the bytes of a buffer. -/
def loadBuffer (mem : Nat) (address : D.AxiAddr) (buffer : List Byte) (dram : Nat → D.AxiAddr → Byte) :
    Nat → D.AxiAddr → Byte :=
  if D.dramBase ≤ address.toNat then
    (List.range buffer.length).foldl (fun dram i =>
      let info := D.preloadInfo (address + BitVec.ofNat _ i)
      if info.dramCtrlId.toNat = mem then
        Function.update dram mem (Function.update (dram mem) info.dramCtrlAddr (buffer.getD i 0))
      else dram) dram
  else dram

/-- `while (get_section(address, length))`, at most `fuel` times. -/
def loadSections (mem : Nat) : Nat → Sim D → Option (Sim D)
  | 0, _ => none
  | fuel + 1, s =>
    match s.dpi.getSection with
    | none => some s
    | some ((a, l), dpi) =>
      let address := BitVec.ofNat _ a
      let length := BitVec.ofNat _ l
      (dpi.readSection address.toNat (bufferBytes D length)).bind fun buffer =>
        loadSections mem fuel ⟨dpi, loadBuffer mem address buffer s.dram⟩

/-- `l2_init` of channel `mem`. -/
def l2Init (file : List Byte) (mem : Nat) (s : Sim D) : Option (Sim D) :=
  (readElf file s.dpi).bind fun dpi => loadSections mem (dpi.sections.length + 1) { s with dpi := dpi }

/-- The blocks of the channels, in the given order. -/
def preload (file : List Byte) (order : List Nat) (s : Sim D) : Option (Sim D) :=
  order.foldlM (fun s mem => l2Init file mem s) s

/-- What a request of the cluster for a DRAM address finds: the cluster scrambles the address and takes the
channel from it, and the memory of the channel has the address of the request less its base. -/
def dramByte (N : DramCfg.AddrDecodeNapot D.spatzAxiAddrWidth) (dram : Nat → D.AxiAddr → Byte)
    (addr : D.AxiAddr) : Byte :=
  dram (D.tileSel N (D.scrambleAddr addr))
    (D.axiDramReqAddr (D.scrambleAddr addr) - BitVec.ofNat _ D.dramBase)

/-! ## Segments in memory -/

variable (D)

/-- A length filled up to whole words. -/
def padded (n : Nat) : Nat := (n + D.l2BankBeWidth - 1) / D.l2BankBeWidth * D.l2BankBeWidth

/-- A segment is wholly below the DRAM or, with its padding, within it. -/
structure Placed (s : Segment) : Prop where
  filesz : s.filesz ≤ s.memsz
  memsz : s.memsz < 2 ^ D.spatzAxiAddrWidth
  region : s.paddr + s.memsz ≤ D.dramBase ∨
    D.dramBase ≤ s.paddr ∧ s.paddr + padded D s.memsz ≤ D.dramBase + D.numL2Channel * D.dramPerChSize

/-- Where the preloader puts a byte. -/
def place (addr : D.AxiAddr) : Nat × D.AxiAddr :=
  ((D.preloadInfo addr).dramCtrlId.toNat, (D.preloadInfo addr).dramCtrlAddr)

/-- The bytes of a segment and its padding. -/
def segmentWrites (file : List Byte) (s : Segment) : List (D.AxiAddr × Byte) :=
  if D.dramBase ≤ s.paddr then
    (List.range (padded D s.memsz)).map fun i => (BitVec.ofNat _ (s.paddr + i), (s.data file).getD i 0)
  else []

variable {D} {file : List Byte} {s : Segment}

theorem place_injective (h : D.Wf) : Function.Injective (place D) := by
  intro a b hab
  have hid := congrArg Prod.fst hab
  have haddr := congrArg Prod.snd hab
  simp only [place, DramCfg.preloadInfo, DramCfg.dramCtrlId_toNat h] at hid haddr
  have hsub := DramCfg.eq_of_channel_of_ctrlAddr h hid haddr
  rw [← BitVec.sub_add_cancel a (BitVec.ofNat _ D.dramBase), hsub, BitVec.sub_add_cancel]

/-- **The cluster finds a byte where the preloader puts it.** -/
theorem dramByte_eq (h : D.Wf) (N : DramCfg.AddrDecodeNapot D.spatzAxiAddrWidth)
    (dram : Nat → D.AxiAddr → Byte) {addr : D.AxiAddr} (ha : D.IsDram addr) :
    dramByte N dram addr = Shards.view (place D) dram addr := by
  rw [dramByte, DramCfg.tileSel_scrambleAddr h N ha, DramCfg.axiDramReqAddr,
    DramCfg.revertAddr_scrambleAddr h, DramCfg.ctrlAddr_sub_base h ha, Shards.view, place,
    DramCfg.preloadInfo, DramCfg.dramCtrlId_toNat h, DramCfg.channel_sub_base h ha]

/-! ## Lengths -/

/-- Words are shorter than a channel, and channels than the region. -/
theorem word_bounds (h : D.Wf) : 0 < D.l2BankBeWidth ∧ D.l2BankBeWidth < D.numL2Channel * D.dramPerChSize ∧
    D.numL2Channel * D.dramPerChSize ≤ 2 ^ 31 := by
  obtain ⟨c, hc⟩ := h.granularity
  have hpos : 0 < D.l2BankBeWidth * D.interleave := by
    rw [hc]
    exact Nat.two_pow_pos _
  have hle := Nat.le_mul_of_pos_right D.l2BankBeWidth (Nat.pos_of_mul_pos_left hpos)
  have hinter := h.interleaves
  have htotal := Nat.le_mul_of_pos_left D.dramPerChSize
    (show 0 < D.numL2Channel by
      rw [h.bits.1]
      exact Nat.two_pow_pos _)
  have h32 := h.int_unsigned.1
  refine ⟨Nat.pos_of_mul_pos_right hpos, by omega, ?_⟩
  rw [h.total] at h32 ⊢
  have := (Nat.pow_lt_pow_iff_right (a := 2) (by omega)).mp h32
  exact Nat.pow_le_pow_right (by omega) (by omega)

theorem le_padded (h : D.Wf) (n : Nat) : n ≤ padded D n := by
  have hbe := (word_bounds h).1
  have hdiv := Nat.div_add_mod' (n + D.l2BankBeWidth - 1) D.l2BankBeWidth
  have hmod := Nat.mod_lt (n + D.l2BankBeWidth - 1) hbe
  rw [padded]
  omega

theorem Placed.bounds (h : D.Wf) (hs : Placed D s) :
    s.paddr + s.memsz ≤ 2 ^ D.spatzAxiAddrWidth ∧ s.memsz + D.l2BankBeWidth ≤ 2 ^ 32 := by
  have hword := word_bounds h
  have hle := le_padded h s.memsz
  have h32 := h.base_add_le
  have hw := h.addressable
  rcases hs.region with hr | hr <;> omega

/-- The buffer of a segment. -/
theorem bufferBytes_eq (h : D.Wf) (hs : Placed D s) :
    bufferBytes D (BitVec.ofNat _ s.memsz) = padded D s.memsz := by
  have hword := word_bounds h
  have hbound := (hs.bounds h).2
  have hpad : padded D s.memsz ≤ s.memsz + D.l2BankBeWidth - 1 := Nat.div_mul_le_self _ _
  have hmax : 2 ^ 32 ≤ 2 ^ max D.spatzAxiAddrWidth 32 := Nat.pow_le_pow_right (by omega) (by omega)
  have hwords : (s.memsz + D.l2BankBeWidth - 1) / D.l2BankBeWidth < 2 ^ 32 :=
    Nat.lt_of_le_of_lt (Nat.div_le_self _ _) (by omega)
  have hsum : s.memsz + D.l2BankBeWidth - 1 < 2 ^ max D.spatzAxiAddrWidth 32 := by omega
  rw [bufferBytes, BitVec.toNat_ofNat, Nat.mod_eq_of_lt hs.memsz, Nat.mod_eq_of_lt hsum]
  show _ % 2 ^ 32 * _ % 2 ^ 32 = _
  rw [Nat.mod_eq_of_lt hwords, ← padded, Nat.mod_eq_of_lt (by omega)]

/-! ## A block -/

/-- The bytes of a buffer are written as the channel's part of a segment. -/
theorem loadBuffer_eq (mem : Nat) (dram : Nat → D.AxiAddr → Byte) {buffer : List Byte}
    (hlt : s.paddr < 2 ^ D.spatzAxiAddrWidth) (hlen : buffer.length = padded D s.memsz)
    (hbuffer : ∀ i, buffer.getD i 0 = (s.data file).getD i 0) :
    loadBuffer mem (BitVec.ofNat _ s.paddr) buffer dram =
      Shards.load (place D) mem (segmentWrites D file s) dram := by
  rw [loadBuffer, segmentWrites, BitVec.toNat_ofNat, Nat.mod_eq_of_lt hlt, hlen]
  split
  · simp only [Shards.load, List.foldl_map, hbuffer, place, BitVec.ofNat_add]
    rfl
  · rfl

/-- The loop fetches the sections that are left, one after the other. -/
theorem loadSections_eq (h : D.Wf) (mem : Nat) {segs : List Segment} {d : Dpi} {dram : Nat → D.AxiAddr → Byte}
    {fuel : Nat} (hdrop : d.sections.drop d.sectionIndex = segs.map fun s => (s.paddr, s.memsz))
    (hindex : d.sectionIndex ≤ d.sections.length)
    (hsegs : ∀ s ∈ segs, Placed D s ∧ s.Loadable file ∧ d.mems s.paddr = some (s.data file))
    (hfuel : segs.length < fuel) :
    loadSections mem fuel ⟨d, dram⟩ = some ⟨{ d with sectionIndex := d.sections.length },
      Shards.load (place D) mem (segs.flatMap (segmentWrites D file)) dram⟩ := by
  induction segs generalizing d dram fuel with
  | nil =>
    obtain ⟨fuel, rfl⟩ := Nat.exists_eq_succ_of_ne_zero (by omega : fuel ≠ 0)
    have hend : d.sectionIndex = d.sections.length :=
      Nat.le_antisymm hindex (List.drop_eq_nil_iff.mp hdrop)
    have hnone : d.getSection = none := by
      rw [Dpi.getSection, List.getElem?_eq_none (by omega), Option.map_none]
    rw [loadSections, hnone, ← hend]
    rfl
  | cons s segs ih =>
    obtain ⟨fuel, rfl⟩ := Nat.exists_eq_succ_of_ne_zero (by omega : fuel ≠ 0)
    obtain ⟨⟨hplaced, hload, hmems⟩, hrest⟩ := List.forall_mem_cons.mp hsegs
    have hget : d.sections[d.sectionIndex]? = some (s.paddr, s.memsz) := by
      rw [← Nat.add_zero d.sectionIndex, ← List.getElem?_drop, hdrop]
      rfl
    have hlt : d.sectionIndex < d.sections.length := (List.getElem?_eq_some_iff.mp hget).1
    have hbounds := (hplaced.bounds h).1
    have hmemsz := hload.memsz
    have hpaddr : s.paddr < 2 ^ D.spatzAxiAddrWidth := by omega
    have haddr : (BitVec.ofNat D.spatzAxiAddrWidth s.paddr).toNat = s.paddr := by
      rw [BitVec.toNat_ofNat, Nat.mod_eq_of_lt hpaddr]
    obtain ⟨buffer, hread, hlen, hbuffer⟩ := readSection_of_mems hmems (n := padded D s.memsz) (by
      rw [hload.data_length]
      exact Nat.le_trans hplaced.filesz (le_padded h _))
    have hnext : loadSections mem fuel ⟨{ d with sectionIndex := d.sectionIndex + 1 },
        Shards.load (place D) mem (segmentWrites D file s) dram⟩ = _ :=
      ih (by rw [← List.drop_drop, hdrop]; rfl) hlt hrest (by simp only [List.length_cons] at hfuel; omega)
    simp only [loadSections, Dpi.getSection, hget, Option.map_some, haddr, bufferBytes_eq h hplaced]
    have hread' : ({ d with sectionIndex := d.sectionIndex + 1 } : Dpi).readSection s.paddr
        (padded D s.memsz) = some buffer := hread
    rw [hread', Option.bind_some, loadBuffer_eq mem dram hpaddr hlen hbuffer, hnext, List.flatMap_cons,
      Shards.load_append]

/-- Between two blocks all sections have been fetched, and `mems` has of a segment its bytes or nothing. -/
structure Ready (file : List Byte) (segs : List Segment) (d : Dpi) : Prop where
  consumed : d.sectionIndex = d.sections.length
  mems : ∀ s ∈ segs, d.mems s.paddr = none ∨ d.mems s.paddr = some (s.data file)

/-- The segments of a file, in the order of their addresses and apart. -/
structure Program (D : DramCfg) (segs : List Segment) : Prop where
  placed : ∀ s ∈ segs, Placed D s
  ascending : segs.Pairwise fun s t => s.paddr + s.memsz ≤ t.paddr

/-- **A block** reads the file and gives its channel its part of the segments. -/
theorem l2Init_eq (h : D.Wf) (mem : Nat) {e : Elf} (hfile : parse file = some e)
    (hprog : Program D e.segments) {d : Dpi} (hd : Ready file e.segments d)
    (dram : Nat → D.AxiAddr → Byte) :
    ∃ d', l2Init file mem ⟨d, dram⟩ = some ⟨d',
      Shards.load (place D) mem (e.segments.flatMap (segmentWrites D file)) dram⟩ ∧
      Ready file e.segments d' := by
  have hloadable := parse_segments hfile
  have hapart : e.segments.Pairwise fun s t => s.paddr ≠ t.paddr := by
    refine hprog.ascending.imp_of_mem fun hs _ hle => ?_
    have := (hloadable _ hs).memsz
    omega
  obtain ⟨d₁, hread⟩ : ∃ d₁, d₁ = e.segments.foldl (Dpi.load file) { d with entry := e.entry } := ⟨_, rfl⟩
  have hsections : d₁.sections = d.sections ++ e.segments.map fun s => (s.paddr, s.memsz) := by
    rw [hread, foldl_load_sections]
  have hindex : d₁.sectionIndex = d.sections.length := by
    rw [hread, foldl_load_sectionIndex]
    exact hd.consumed
  have hmems : ∀ s ∈ e.segments, d₁.mems s.paddr = some (s.data file) := by
    intro s hs
    rw [hread]
    exact foldl_load_mems hapart hs (hd.mems s hs)
  refine ⟨{ d₁ with sectionIndex := d₁.sections.length }, ?_, rfl, fun s hs => .inr (hmems s hs)⟩
  rw [l2Init, readElf, hfile, Option.map_some, Option.bind_some, ← hread]
  refine loadSections_eq h mem ?_ ?_ (fun s hs => ⟨hprog.placed s hs, hloadable s hs, hmems s hs⟩) ?_
  · rw [hsections, hindex, List.drop_left]
  · rw [hsections, hindex, List.length_append]
    omega
  · rw [hsections, List.length_append, List.length_map]
    omega

/-- All blocks, in any order. -/
theorem preload_eq (h : D.Wf) {e : Elf} (hfile : parse file = some e) (hprog : Program D e.segments)
    (order : List Nat) {d : Dpi} (hd : Ready file e.segments d) (dram : Nat → D.AxiAddr → Byte) :
    ∃ d', preload file order ⟨d, dram⟩ = some ⟨d', order.foldl (fun g mem =>
      Shards.load (place D) mem (e.segments.flatMap (segmentWrites D file)) g) dram⟩ := by
  induction order generalizing d dram with
  | nil => exact ⟨d, rfl⟩
  | cons mem order ih =>
    obtain ⟨d', hblock, hd'⟩ := l2Init_eq h mem hfile hprog hd dram
    obtain ⟨d'', hrest⟩ := ih hd' (Shards.load (place D) mem (e.segments.flatMap (segmentWrites D file)) dram)
    refine ⟨d'', ?_⟩
    rw [preload, List.foldlM_cons, hblock]
    exact hrest

/-! ## The flat memory -/

/-- The addresses of a segment and its padding. -/
theorem Placed.address (h : D.Wf) (hs : Placed D s) (hmemsz : s.memsz ≠ 0) (hbase : D.dramBase ≤ s.paddr)
    {i : Nat} (hi : i < padded D s.memsz) : (BitVec.ofNat D.spatzAxiAddrWidth (s.paddr + i)).toNat = s.paddr + i ∧
      s.paddr + i < D.dramBase + D.numL2Channel * D.dramPerChSize := by
  have hw := h.addressable
  have hlt : s.paddr + i < D.dramBase + D.numL2Channel * D.dramPerChSize := by
    rcases hs.region with hr | hr <;> omega
  exact ⟨by rw [BitVec.toNat_ofNat, Nat.mod_eq_of_lt (by omega)], hlt⟩

/-- A segment writes the bytes from its address to the end of its padding. -/
theorem segmentWrites_bounds (h : D.Wf) (hs : Placed D s) (hmemsz : s.memsz ≠ 0) :
    ∀ e ∈ segmentWrites D file s, D.dramBase ≤ s.paddr ∧ ∃ i < padded D s.memsz,
      e.1.toNat = s.paddr + i ∧ e.2 = (s.data file).getD i 0 := by
  intro e he
  rw [segmentWrites] at he
  split at he
  · rename_i hbase
    obtain ⟨i, hi, rfl⟩ := List.mem_map.mp he
    have hi := List.mem_range.mp hi
    exact ⟨hbase, i, hi, (hs.address h hmemsz hbase hi).1, rfl⟩
  · cases he

/-- The bytes of a segment are the last ones written to its addresses: only the padding of the segments before
it comes to lie there. -/
theorem lastWrite_segment (h : D.Wf) {segs : List Segment} (hprog : Program D segs)
    (hload : ∀ s ∈ segs, s.Loadable file) (hs : s ∈ segs) (hbase : D.dramBase ≤ s.paddr) {i : Nat}
    (hi : i < s.memsz) :
    Shards.lastWrite (segs.flatMap (segmentWrites D file)) (BitVec.ofNat _ (s.paddr + i)) =
      some ((s.data file).getD i 0) := by
  obtain ⟨before, after, rfl⟩ := List.append_of_mem hs
  have hi' : i < padded D s.memsz := Nat.lt_of_lt_of_le hi (le_padded h _)
  have hself := hprog.placed s hs
  have haddr := (hself.address h (hload s hs).memsz hbase hi').1
  have hafter : Shards.lastWrite (after.flatMap (segmentWrites D file)) (BitVec.ofNat _ (s.paddr + i)) =
      none := by
    refine Shards.lastWrite_eq_none fun e he heq => ?_
    obtain ⟨t, ht, he⟩ := List.mem_flatMap.mp he
    have hmem : t ∈ before ++ s :: after := List.mem_append_right _ (List.mem_cons_of_mem _ ht)
    obtain ⟨_, j, _, hj, _⟩ := segmentWrites_bounds h (hprog.placed t hmem) (hload t hmem).memsz e he
    have hle := List.rel_of_pairwise_cons (List.pairwise_append.mp hprog.ascending).2.1 ht
    rw [heq, haddr] at hj
    omega
  have hwrite : Shards.lastWrite (segmentWrites D file s) (BitVec.ofNat _ (s.paddr + i)) =
      some ((s.data file).getD i 0) := by
    refine Shards.lastWrite_eq_some ?_ ?_
    · rw [segmentWrites, if_pos hbase]
      exact List.mem_map_of_mem (List.mem_range.mpr hi')
    · intro e he heq
      obtain ⟨_, j, _, hj, hbyte⟩ := segmentWrites_bounds h hself (hload s hs).memsz e he
      rw [heq, haddr] at hj
      rw [hbyte, show j = i by omega]
  rw [List.flatMap_append, List.flatMap_cons, Shards.lastWrite_append, Shards.lastWrite_append, hafter,
    hwrite]
  rfl

theorem data_getD (s : Segment) (i : Nat) :
    (s.data file).getD i 0 = if i < s.filesz then file.getD (s.offset + i) 0 else 0 := by
  simp only [Segment.data, List.getD_eq_getElem?_getD, List.getElem?_take, List.getElem?_drop]
  split <;> rfl

/-- After all blocks the cluster finds at an address the last byte written to it. -/
theorem dramByte_loadAll (h : D.Wf) (N : DramCfg.AddrDecodeNapot D.spatzAxiAddrWidth) {order : List Nat}
    (horder : order.Perm (List.range D.numL2Channel)) (ws : List (D.AxiAddr × Byte))
    (dram : Nat → D.AxiAddr → Byte) {addr : D.AxiAddr} (ha : D.IsDram addr) :
    dramByte N (order.foldl (fun g mem => Shards.load (place D) mem ws g) dram) addr =
      (Shards.lastWrite ws addr).getD (dramByte N dram addr) := by
  have hmem : (place D addr).1 ∈ order := by
    rw [horder.mem_iff, List.mem_range, place, DramCfg.preloadInfo, DramCfg.dramCtrlId_toNat h]
    exact DramCfg.channel_lt h _
  rw [dramByte_eq h N _ ha, dramByte_eq h N _ ha, Shards.view_loadAll (place_injective h), if_pos hmem,
    Shards.apply_eq]

/-- **A program is loaded exactly.**  If the segments of a file are in the order of their addresses, apart but
for their padding, and each below the DRAM or within it, then in whatever order the channels are initialised
the cluster finds at every address of a segment in the DRAM the byte of the file or, behind what the file has,
zero; and where no segment and no padding comes to lie, nothing has changed. -/
theorem preload_exact (h : D.Wf) (N : DramCfg.AddrDecodeNapot D.spatzAxiAddrWidth) {e : Elf}
    (hfile : parse file = some e) (hprog : Program D e.segments) {order : List Nat}
    (horder : order.Perm (List.range D.numL2Channel)) (dram : Nat → D.AxiAddr → Byte) :
    ∃ after, preload file order ⟨.init, dram⟩ = some after ∧
      (∀ s ∈ e.segments, D.dramBase ≤ s.paddr → ∀ i < s.memsz,
        dramByte N after.dram (BitVec.ofNat _ (s.paddr + i)) =
          if i < s.filesz then file.getD (s.offset + i) 0 else 0) ∧
      ∀ addr, D.IsDram addr →
        (∀ s ∈ e.segments, D.dramBase ≤ s.paddr →
          ¬ (s.paddr ≤ addr.toNat ∧ addr.toNat < s.paddr + padded D s.memsz)) →
        dramByte N after.dram addr = dramByte N dram addr := by
  have hload := parse_segments hfile
  obtain ⟨d, hd⟩ := preload_eq h hfile hprog order (d := .init) ⟨rfl, fun _ _ => .inl rfl⟩ dram
  refine ⟨_, hd, ?_, ?_⟩
  · intro s hs hbase i hi
    obtain ⟨haddr, hlt⟩ := (hprog.placed s hs).address h (hload s hs).memsz hbase
      (Nat.lt_of_lt_of_le hi (le_padded h _))
    rw [dramByte_loadAll h N horder _ _ (by rw [DramCfg.IsDram, haddr]; omega),
      lastWrite_segment h hprog hload hs hbase hi, Option.getD_some, data_getD]
  · intro addr ha hout
    have hnone : Shards.lastWrite (e.segments.flatMap (segmentWrites D file)) addr = none := by
      refine Shards.lastWrite_eq_none fun w hw heq => ?_
      obtain ⟨s, hs, hw⟩ := List.mem_flatMap.mp hw
      obtain ⟨hbase, i, hi, haddr, _⟩ :=
        segmentWrites_bounds h (hprog.placed s hs) (hload s hs).memsz w hw
      refine hout s hs hbase ?_
      rw [← heq, haddr]
      omega
    rw [dramByte_loadAll h N horder _ _ ha, hnone, Option.getD_none]

/-- The `n` bytes of a number, the lowest first. -/
def fieldBytes (n v : Nat) : List Byte := (List.range n).map fun i => BitVec.ofNat 8 (v / 2 ^ (8 * i))

/-- A file of two segments, the second one in the padding of the first. -/
def smallElf : List Byte :=
  [0x7f, 0x45, 0x4c, 0x46, 1] ++ List.replicate 19 0 ++ fieldBytes 4 0x80000000 ++ fieldBytes 4 52 ++
    fieldBytes 4 116 ++ List.replicate 8 0 ++ fieldBytes 2 2 ++ fieldBytes 2 40 ++ fieldBytes 2 1 ++
    fieldBytes 2 0 ++ fieldBytes 4 1 ++ fieldBytes 4 156 ++ List.replicate 4 0 ++ fieldBytes 4 0x80000000 ++ fieldBytes 4 4 ++
    fieldBytes 4 8 ++ List.replicate 8 0 ++
    fieldBytes 4 1 ++ fieldBytes 4 160 ++ List.replicate 4 0 ++ fieldBytes 4 0x80000010 ++ fieldBytes 4 4 ++
    fieldBytes 4 4 ++ List.replicate 8 0 ++ List.replicate 40 0 ++ [1, 2, 3, 4, 5, 6, 7, 8]

theorem preload_exact_two :
    ∃ after : Sim DramCfg.defaultCfg,
      preload smallElf [2, 0, 3, 1] ⟨.init, fun _ _ => 0xff⟩ = some after ∧
      dramByte (DramCfg.lastMatch 32) after.dram (BitVec.ofNat 32 0x80000001) = 2 ∧
      dramByte (DramCfg.lastMatch 32) after.dram (BitVec.ofNat 32 0x80000004) = 0 ∧
      dramByte (DramCfg.lastMatch 32) after.dram (BitVec.ofNat 32 0x80000010) = 5 := by
  have hprog : Program DramCfg.defaultCfg [⟨156, 0x80000000, 4, 8⟩, ⟨160, 0x80000010, 4, 4⟩] :=
    { placed := by
        intro s hs
        rcases List.mem_pair.mp hs with rfl | rfl <;>
          exact ⟨by decide, by decide, .inr (by decide)⟩
      ascending := by decide }
  have hfile : parse smallElf = some ⟨0x80000000, [⟨156, 0x80000000, 4, 8⟩, ⟨160, 0x80000010, 4, 4⟩]⟩ := by
    decide +kernel
  have horder : [2, 0, 3, 1].Perm (List.range DramCfg.defaultCfg.numL2Channel) := by decide
  obtain ⟨after, hafter, hbytes, _⟩ :=
    preload_exact DramCfg.defaultCfg_wf (DramCfg.lastMatch 32) hfile hprog horder fun _ _ => 0xff
  refine ⟨after, hafter, ?_, ?_, ?_⟩
  · exact (hbytes _ (.head _) (by decide) 1 (by decide)).trans (by decide)
  · exact (hbytes _ (.head _) (by decide) 4 (by decide)).trans (by decide)
  · exact (hbytes _ (.tail _ (.head _)) (by decide) 0 (by decide)).trans (by decide)

end Preload

end CachePool
