import CachePool.Lib.Arena
import CachePool.Lib.Machine

/-!
# The allocator of the cluster memory (`alloc.c`)

`next` moves up by the rounded size of each request; both the rounding and the comparison with the end are
sums of 32-bit words.  `base` is `start` rounded up, `size` the distance from `start`, not from `base`.

* `snrtAllocInit`, `snrtL1alloc`, `snrtL1allocReset`, `snrtL3alloc` — the functions.
* `system` — calls in any order, with the blocks handed out since the last reset.
* `Right` — what these blocks are to be: aligned, inside the region, apart from each other.
* `Fits` — the condition on a request: the sums stay below the word, and the request does not reach beyond
  `end` into the bytes by which `base` was rounded up.
* `right_of_fits`, `l1alloc_right` — runs whose requests all meet it are right, and only they where the region
  leaves the last eight bytes of the address space alone.
-/

set_option autoImplicit false

namespace CachePool

namespace Alloc

open Arena

/-- `ALIGN_UP`. -/
def alignUp (addr size : BitVec 32) : BitVec 32 := (addr + size - 1) &&& ~~~(size - 1)

/-- `MIN_CHUNK_SIZE`. -/
def minChunkSize : BitVec 32 := 8

/-- `struct snrt_allocator_inst`. -/
structure AllocatorInst where
  base : BitVec 32
  size : BitVec 32
  next : BitVec 32
  deriving DecidableEq, Repr

/-- `struct snrt_allocator`. -/
structure Allocator where
  l1 : AllocatorInst
  l3 : AllocatorInst
  deriving DecidableEq, Repr

/-- `snrt_alloc_init` for the slice `cluster_mem` from `start` to `end_` and the word at `_edram`. -/
def snrtAllocInit (start end_ : BitVec 64) (edram l3off : BitVec 32) : Allocator where
  l1 :=
    { base := alignUp (start.setWidth 32) minChunkSize
      size := (end_ - start).setWidth 32
      next := alignUp (start.setWidth 32) minChunkSize }
  l3 :=
    { base := alignUp (edram + l3off) minChunkSize
      size := 0
      next := alignUp (edram + l3off) minChunkSize }

/-- `snrt_l1alloc`: the pointer, 0 for `NULL`, and the allocator. -/
def snrtL1alloc (al : Allocator) (size : BitVec 32) : BitVec 32 × Allocator :=
  let size := alignUp size minChunkSize
  if al.l1.next + size > al.l1.base + al.l1.size then (0, al)
  else (al.l1.next, { al with l1 := { al.l1 with next := al.l1.next + size } })

/-- `snrt_l1alloc_reset`. -/
def snrtL1allocReset (al : Allocator) : Allocator :=
  { al with l1 := { al.l1 with next := al.l1.base } }

/-- `snrt_l3alloc`. -/
def snrtL3alloc (al : Allocator) (size : BitVec 32) : BitVec 32 × Allocator :=
  (al.l3.next, { al with l3 := { al.l3 with next := al.l3.next + size } })

/-! ## Calls in any order -/

/-- The slice `cluster_mem`: addresses from `start` to `end_` of the 32-bit address space. -/
structure Region where
  start : BitVec 64
  end_ : BitVec 64
  start_le : start.toNat ≤ end_.toNat
  end_le : end_.toNat ≤ 2 ^ 32

/-- The allocator, and the non-`NULL` results of `snrt_l1alloc` since the last reset. -/
structure State where
  alloc : Allocator
  live : List Block
  deriving DecidableEq, Repr

inductive Op where
  | l1alloc (size : BitVec 32)
  | l1allocReset
  | l3alloc (size : BitVec 32)
  deriving DecidableEq, Repr

def State.next (s : State) : Op → State
  | .l1alloc size =>
    let r := snrtL1alloc s.alloc size
    { alloc := r.2, live := if r.1 = 0 then s.live else s.live ++ [⟨r.1.toNat, size.toNat⟩] }
  | .l1allocReset => ⟨snrtL1allocReset s.alloc, []⟩
  | .l3alloc size => { s with alloc := (snrtL3alloc s.alloc size).2 }

def system (R : Region) (edram l3off : BitVec 32) : Machine State Op where
  init := ⟨snrtAllocInit R.start R.end_ edram l3off, []⟩
  next := State.next

/-- Every block is aligned and inside the region with its full size, and no two share a byte. -/
def Right (R : Region) (s : State) : Prop :=
  (∀ b ∈ s.live, 8 ∣ b.addr ∧ R.start.toNat ≤ b.addr ∧ b.addr + b.size ≤ R.end_.toNat) ∧ Separate s.live

/-- A size rounded up, in full. -/
def ceil8 (n : Nat) : Nat := (n + 7) / 8 * 8

/-- The condition on a request of `n` bytes: the sums of the code stay below the word, and the request ends in
the region or beyond `base + size`.  Nothing is asked where `next` itself is `NULL`. -/
def Fits (R : Region) (l1 : AllocatorInst) (n : Nat) : Prop :=
  l1.next = 0 ∨ l1.next.toNat + ceil8 n < 2 ^ 32 ∧
    (l1.next.toNat + n ≤ R.end_.toNat ∨ l1.base.toNat + l1.size.toNat < l1.next.toNat + ceil8 n)

def FitsStep (R : Region) (s : State) : Op → Prop
  | .l1alloc size => Fits R s.alloc.l1 size.toNat
  | _ => True

/-! ## Rounding -/

/-- The mask keeps the multiple of eight. -/
theorem toNat_and_not_seven (x : BitVec 32) : (x &&& ~~~7#32).toNat = x.toNat / 8 * 8 := by
  have hshift : x &&& ~~~7#32 = (x >>> 3) <<< 3 := by
    apply BitVec.eq_of_getLsbD_eq
    intro i hi
    have hseven : (7#32).getLsbD i = decide (i < 3) := by
      rw [BitVec.getLsbD, show (7#32).toNat = 2 ^ 3 - 1 by decide, Nat.testBit_two_pow_sub_one]
    rw [BitVec.getLsbD_and, BitVec.getLsbD_not, hseven, BitVec.getLsbD_shiftLeft,
      BitVec.getLsbD_ushiftRight]
    by_cases h3 : i < 3
    · simp [h3, hi]
    · simp [h3, hi, Nat.add_sub_cancel' (Nat.le_of_not_lt h3)]
  have hx := x.isLt
  rw [hshift, BitVec.toNat_shiftLeft, BitVec.toNat_ushiftRight, Nat.shiftRight_eq_div_pow,
    Nat.shiftLeft_eq]
  omega

/-- The rounding of the code, which may wrap. -/
theorem toNat_alignUp (a : BitVec 32) :
    (alignUp a minChunkSize).toNat = (a.toNat + 7) % 2 ^ 32 / 8 * 8 := by
  have hsum : a + minChunkSize - 1 = a + 7#32 := by
    unfold minChunkSize
    bv_omega
  rw [alignUp, hsum, show ~~~(minChunkSize - 1) = ~~~7#32 from rfl, toNat_and_not_seven,
    BitVec.toNat_add]
  rfl

/-! ## One request -/

/-- The size after the rounding of the code. -/
def rounded (n : Nat) : Nat := (n + 7) % 2 ^ 32 / 8 * 8

/-- What an allocation compares, as numbers. -/
def Accepts (l1 : AllocatorInst) (n : Nat) : Prop :=
  (l1.next.toNat + rounded n) % 2 ^ 32 ≤ (l1.base.toNat + l1.size.toNat) % 2 ^ 32

variable {R : Region} {al : Allocator} {n : BitVec 32}

theorem snrtL1alloc_of_not_accepts (h : ¬ Accepts al.l1 n.toNat) : snrtL1alloc al n = (0, al) := by
  have hgt : al.l1.next + alignUp n minChunkSize > al.l1.base + al.l1.size := by
    rw [gt_iff_lt, BitVec.lt_def, BitVec.toNat_add, BitVec.toNat_add, toNat_alignUp]
    exact Nat.not_le.mp h
  simp only [snrtL1alloc, if_pos hgt]

theorem snrtL1alloc_of_accepts (h : Accepts al.l1 n.toNat) :
    (snrtL1alloc al n).1 = al.l1.next ∧ (snrtL1alloc al n).2.l1.base = al.l1.base ∧
      (snrtL1alloc al n).2.l1.size = al.l1.size ∧
      (snrtL1alloc al n).2.l1.next.toNat = (al.l1.next.toNat + rounded n.toNat) % 2 ^ 32 := by
  have hle : ¬ al.l1.next + alignUp n minChunkSize > al.l1.base + al.l1.size := by
    rw [gt_iff_lt, BitVec.lt_def, BitVec.toNat_add, BitVec.toNat_add, toNat_alignUp]
    exact Nat.not_lt.mpr h
  simp only [snrtL1alloc, if_neg hle, BitVec.toNat_add, toNat_alignUp, rounded, and_self]

theorem eight_dvd_rounded (n : Nat) : 8 ∣ rounded n := Nat.dvd_mul_left _ _

theorem rounded_eq {n : Nat} (h : ceil8 n < 2 ^ 32) : rounded n = ceil8 n := by
  unfold rounded
  unfold ceil8 at h ⊢
  rw [Nat.mod_eq_of_lt (by omega)]

/-! ## The invariant -/

/-- `base` and `size` are those of the region, `next` is between them, and the blocks are packed below it.
Where `base` itself wrapped to `NULL`, nothing is ever handed out. -/
structure Inv (R : Region) (s : State) : Prop where
  base : s.alloc.l1.base.toNat = rounded R.start.toNat
  size : s.alloc.l1.size.toNat = (R.end_.toNat - R.start.toNat) % 2 ^ 32
  aligned : 8 ∣ s.alloc.l1.next.toNat
  upper : s.alloc.l1.next.toNat ≤ s.alloc.l1.base.toNat + s.alloc.l1.size.toNat
  live : ∀ b ∈ s.live, 8 ∣ b.addr ∧ b.addr + b.size ≤ R.end_.toNat
  packed : Packed R.start.toNat s.alloc.l1.next.toNat s.live
  lower : R.start.toNat ≤ s.alloc.l1.next.toNat ∨ 2 ^ 32 - 8 < R.start.toNat ∧ s.alloc.l1.next = 0

theorem Inv.right {s : State} (h : Inv R s) : Right R s :=
  ⟨fun b hb => ⟨(h.live b hb).1, (h.packed.within b hb).1, (h.live b hb).2⟩, h.packed.separate⟩

theorem toNat_base (R : Region) :
    (alignUp (R.start.setWidth 32) minChunkSize).toNat = rounded R.start.toNat := by
  have hle := R.start_le
  have hend := R.end_le
  rw [toNat_alignUp, BitVec.toNat_setWidth, rounded]
  omega

theorem toNat_size (R : Region) :
    ((R.end_ - R.start).setWidth 32).toNat = (R.end_.toNat - R.start.toNat) % 2 ^ 32 := by
  have hle := R.start_le
  have hend := R.end_le
  rw [BitVec.toNat_setWidth, BitVec.toNat_sub]
  omega

theorem lower_base (R : Region) : R.start.toNat ≤ rounded R.start.toNat ∨
    2 ^ 32 - 8 < R.start.toNat ∧ rounded R.start.toNat = 0 := by
  have hle := R.start_le
  have hend := R.end_le
  unfold rounded
  omega

theorem inv_of_next_eq_base {s : State} (hbase : s.alloc.l1.base.toNat = rounded R.start.toNat)
    (hsize : s.alloc.l1.size.toNat = (R.end_.toNat - R.start.toNat) % 2 ^ 32)
    (hnext : s.alloc.l1.next = s.alloc.l1.base) (hlive : s.live = []) : Inv R s := by
  refine ⟨hbase, hsize, ?_, by rw [hnext]; omega, by simp [hlive], hlive ▸ Packed.nil _ _, ?_⟩
  · rw [hnext, hbase]
    exact eight_dvd_rounded _
  · rw [hnext, ← BitVec.toNat_inj, hbase]
    exact lower_base R

theorem inv_init (R : Region) (edram l3off : BitVec 32) : Inv R (system R edram l3off).init :=
  inv_of_next_eq_base (toNat_base R) (toNat_size R) rfl rfl

/-- What the condition says of an accepted request with a pointer. -/
theorem fits_accepted {s : State} (h : Inv R s) {n : Nat} (hfits : Fits R s.alloc.l1 n)
    (hacc : Accepts s.alloc.l1 n) (hne : s.alloc.l1.next ≠ 0) :
    s.alloc.l1.next.toNat + n ≤ R.end_.toNat ∧ rounded n = ceil8 n ∧
      s.alloc.l1.next.toNat + ceil8 n < 2 ^ 32 := by
  obtain ⟨hsum, hend⟩ := hfits.resolve_left hne
  have hround := rounded_eq (show ceil8 n < 2 ^ 32 by omega)
  have hpos : 0 < s.alloc.l1.next.toNat := by
    rw [Nat.pos_iff_ne_zero]
    exact fun h0 => hne (BitVec.eq_of_toNat_eq h0)
  refine ⟨?_, hround, hsum⟩
  rw [Accepts, hround, Nat.mod_eq_of_lt hsum] at hacc
  rcases hend with hend | hbeyond
  · exact hend
  · -- then `base + size` wraps, to less than 8, and only `NULL` would be accepted
    have hbase := h.base
    have hsize := h.size
    have haligned := h.aligned
    have hle := R.start_le
    have hendle := R.end_le
    unfold rounded at hbase
    unfold ceil8 at hacc hbeyond
    omega

theorem next_of_not_accepts {s : State} (h : ¬ Accepts s.alloc.l1 n.toNat) :
    s.next (.l1alloc n) = s := by
  simp only [State.next, snrtL1alloc_of_not_accepts h, if_true]

/-- A request accepted while `next` is `NULL` hands nothing out. -/
theorem Inv.next_null {s : State} (h : Inv R s) (hacc : Accepts s.alloc.l1 n.toNat)
    (hnull : s.alloc.l1.next = 0) : Inv R (s.next (.l1alloc n)) := by
  obtain ⟨hptr, hbase, hsize, hnext⟩ := snrtL1alloc_of_accepts hacc
  have hz : s.alloc.l1.next.toNat = 0 := by rw [hnull]; rfl
  have hlive : (s.next (.l1alloc n)).live = s.live := by
    simp only [State.next, hptr, hnull, if_true]
  have hdvd := eight_dvd_rounded n.toNat
  have hlt : rounded n.toNat < 2 ^ 32 := by
    unfold rounded
    omega
  have hnext' : (s.next (.l1alloc n)).alloc.l1.next.toNat = rounded n.toNat := by
    rw [show (s.next (.l1alloc n)).alloc = (snrtL1alloc s.alloc n).2 from rfl, hnext, hz,
      Nat.zero_add, Nat.mod_eq_of_lt hlt]
  rw [Accepts, hz, Nat.zero_add, Nat.mod_eq_of_lt hlt] at hacc
  constructor
  · exact (congrArg BitVec.toNat hbase).trans h.base
  · exact (congrArg BitVec.toNat hsize).trans h.size
  · rw [hnext']
    exact hdvd
  · rw [hnext', show (s.next (.l1alloc n)).alloc = (snrtL1alloc s.alloc n).2 from rfl, hbase, hsize]
    exact hacc.trans (Nat.mod_le _ _)
  · rw [hlive]
    exact h.live
  · rw [hlive, hnext']
    exact h.packed.mono (by omega)
  · rcases h.lower with hlow | ⟨hhigh, -⟩
    · exact Or.inl (by omega)
    · right
      refine ⟨hhigh, BitVec.eq_of_toNat_eq ?_⟩
      have hb := h.base
      have hs := h.size
      have hle := R.start_le
      have hendle := R.end_le
      rw [hnext']
      unfold rounded at hb
      simp only [BitVec.ofNat_eq_ofNat, BitVec.toNat_ofNat]
      omega

/-- A request that fits, accepted with a pointer, hands out the next block. -/
theorem Inv.next_block {s : State} (h : Inv R s) (hfits : Fits R s.alloc.l1 n.toNat)
    (hacc : Accepts s.alloc.l1 n.toNat) (hne : s.alloc.l1.next ≠ 0) : Inv R (s.next (.l1alloc n)) := by
  obtain ⟨hend, hround, hsum⟩ := fits_accepted h hfits hacc hne
  obtain ⟨hptr, hbase, hsize, hnext⟩ := snrtL1alloc_of_accepts hacc
  rw [hround, Nat.mod_eq_of_lt hsum] at hnext
  have hlive : (s.next (.l1alloc n)).live = s.live ++ [⟨s.alloc.l1.next.toNat, n.toNat⟩] := by
    simp only [State.next, hptr, if_neg hne]
  have hlow : R.start.toNat ≤ s.alloc.l1.next.toNat := h.lower.resolve_right fun hr => hne hr.2
  have hceil : n.toNat ≤ ceil8 n.toNat ∧ 8 ∣ ceil8 n.toNat := by
    unfold ceil8
    omega
  have halloc : (s.next (.l1alloc n)).alloc = (snrtL1alloc s.alloc n).2 := rfl
  constructor
  · exact (congrArg BitVec.toNat hbase).trans h.base
  · exact (congrArg BitVec.toNat hsize).trans h.size
  · rw [halloc, hnext]
    exact Nat.dvd_add h.aligned hceil.2
  · rw [halloc, hnext, hbase, hsize]
    rw [Accepts, hround, Nat.mod_eq_of_lt hsum] at hacc
    exact hacc.trans (Nat.mod_le _ _)
  · rw [hlive]
    intro b hb
    rcases List.mem_append.mp hb with hold | hnew
    · exact h.live b hold
    · obtain rfl := List.mem_singleton.mp hnew
      exact ⟨h.aligned, hend⟩
  · rw [hlive, halloc, hnext]
    exact h.packed.grant hlow (by omega)
  · rw [halloc, hnext]
    exact Or.inl (by omega)

/-- **The step lemma.** -/
theorem Inv.next {s : State} (h : Inv R s) (op : Op) (hfits : FitsStep R s op) : Inv R (s.next op) := by
  cases op with
  | l1alloc size =>
    by_cases hacc : Accepts s.alloc.l1 size.toNat
    · by_cases hnull : s.alloc.l1.next = 0
      · exact h.next_null hacc hnull
      · exact h.next_block hfits hacc hnull
    · rwa [next_of_not_accepts hacc]
  | l1allocReset => exact inv_of_next_eq_base h.base h.size rfl rfl
  | l3alloc size => exact ⟨h.base, h.size, h.aligned, h.upper, h.live, h.packed, h.lower⟩

/-! ## Where it goes wrong -/

/-- A request that does not fit is accepted, and its block reaches beyond the region. -/
theorem not_right_of_not_fits {s : State} (h : Inv R s) (htop : R.end_.toNat + 8 ≤ 2 ^ 32)
    (hfits : ¬ Fits R s.alloc.l1 n.toNat) : ¬ Right R (s.next (.l1alloc n)) := by
  obtain ⟨hne, hbad⟩ := not_or.mp hfits
  have hn := n.isLt
  have hnext := s.alloc.l1.next.isLt
  have hbase := h.base
  have hsize := h.size
  have haligned := h.aligned
  have hupper := h.upper
  have hle := R.start_le
  have hbeyond : R.end_.toNat < s.alloc.l1.next.toNat + n.toNat := by
    unfold ceil8 at hbad
    omega
  have hacc : Accepts s.alloc.l1 n.toNat := by
    unfold Accepts
    unfold rounded at hbase ⊢
    unfold ceil8 at hbad
    omega
  intro hright
  have hlive : (s.next (.l1alloc n)).live = s.live ++ [⟨s.alloc.l1.next.toNat, n.toNat⟩] := by
    simp only [State.next, (snrtL1alloc_of_accepts hacc).1, if_neg hne]
  have hblock : s.alloc.l1.next.toNat + n.toNat ≤ R.end_.toNat :=
    (hright.1 ⟨s.alloc.l1.next.toNat, n.toNat⟩ (by simp [hlive])).2.2
  omega

/-! ## Runs -/

theorem inv_run (edram l3off : BitVec 32) {ops : List Op}
    (hfits : (system R edram l3off).Meets (FitsStep R) ops) : Inv R ((system R edram l3off).run ops) :=
  Machine.invariant (inv_init R edram l3off) (fun _ op h hop => h.next op hop) ops hfits

/-- Where the region leaves the last eight bytes of the address space alone, a step of a right run stays right
exactly if its request fits. -/
theorem right_next_iff {s : State} (h : Inv R s) (htop : R.end_.toNat + 8 ≤ 2 ^ 32) (op : Op) :
    Right R (s.next op) ↔ FitsStep R s op := by
  constructor
  · intro hright
    cases op with
    | l1alloc size =>
      by_contra hfits
      exact not_right_of_not_fits h htop hfits hright
    | l1allocReset => trivial
    | l3alloc size => trivial
  · exact fun hfits => (h.next op hfits).right

/-- **What the allocator hands out.**  In a run whose requests all fit, the blocks since the last reset are
right in every state reached; and where the region leaves the last eight bytes of the address space alone, in
no other run. -/
theorem l1alloc_right (R : Region) (edram l3off : BitVec 32) (ops : List Op) :
    ((system R edram l3off).Meets (FitsStep R) ops →
      ∀ pre post, ops = pre ++ post → Right R ((system R edram l3off).run pre)) ∧
    (R.end_.toNat + 8 ≤ 2 ^ 32 →
      (∀ pre post, ops = pre ++ post → Right R ((system R edram l3off).run pre)) →
        (system R edram l3off).Meets (FitsStep R) ops) := by
  constructor
  · intro hfits pre post heq
    exact (inv_run edram l3off (hfits.beginning heq)).right
  · intro htop hright
    have hstep : (system R edram l3off).Meets (fun s op => Right R (s.next op)) ops := by
      intro pre op post heq
      have hnext := hright (pre ++ [op]) post (by simp [heq])
      rwa [Machine.run_concat] at hnext
    exact (Machine.meets_congr_upon (inv_init R edram l3off)
      (fun s op h => right_next_iff h htop op) (fun _ op h hop => h.next op hop) ops).mp hstep

/-- The region of 256 bytes at 4096. -/
def pageRegion : Region := ⟨4096, 4352, by decide, by decide⟩

/-- Requests that fill the region, a refused one, and a reset. -/
theorem l1alloc_right_page :
    let M := system pageRegion 0 0
    (M.run [.l1alloc 100, .l1alloc 152, .l1alloc 8]).live = [⟨4096, 100⟩, ⟨4200, 152⟩] ∧
      Right pageRegion (M.run [.l1alloc 100, .l1alloc 152, .l1alloc 8]) ∧
      Right pageRegion (M.run [.l1alloc 100, .l1alloc 152, .l1alloc 8, .l1allocReset]) ∧
      M.Meets (FitsStep pageRegion) [.l1alloc 100] := by
  intro M
  have hright := (l1alloc_right pageRegion 0 0 [.l1alloc 100, .l1alloc 152, .l1alloc 8, .l1allocReset]).1 (by
    rw [Machine.meets_iff_meetsFrom]
    simp only [Machine.MeetsFrom, FitsStep, Fits, and_true]
    refine ⟨?_, ?_, ?_⟩ <;> right <;> decide)
  refine ⟨by decide, hright _ [.l1allocReset] rfl, hright _ [] rfl,
    (l1alloc_right pageRegion 0 0 [.l1alloc 100]).2 (by decide) fun pre post heq => ?_⟩
  exact hright pre (post ++ [.l1alloc 152, .l1alloc 8, .l1allocReset]) (by rw [← List.append_assoc, ← heq]; rfl)

/-- All but the last bytes of the word are handed out in 256 bytes, without moving `next`. -/
theorem l1alloc_wraps :
    ¬ Right pageRegion ((system pageRegion 0 0).run [.l1alloc 0xfffffff9, .l1alloc 8]) ∧
      ((system pageRegion 0 0).run [.l1alloc 0xfffffff9, .l1alloc 8]).live =
        [⟨4096, 0xfffffff9⟩, ⟨4096, 8⟩] := by
  have hlive : ((system pageRegion 0 0).run [.l1alloc 0xfffffff9, .l1alloc 8]).live =
      [⟨4096, 0xfffffff9⟩, ⟨4096, 8⟩] := by decide
  refine ⟨fun hright => ?_, hlive⟩
  have hmem := List.mem_cons_self (a := (⟨4096, 0xfffffff9⟩ : Block)) (l := [⟨4096, 8⟩])
  have hend := (hright.1 ⟨4096, 0xfffffff9⟩ (hlive ▸ hmem)).2.2
  exact absurd hend (by decide)

end Alloc

end CachePool
