import CachePool.Fft.Own

/-!
# The transform of all cores (`fft-32b/main.c`)

After each shared stage the cores wait for each other.  Each of them then goes on with a block of its own,
until its results are at their places.

* `Header` — the generated header; `pointers`, `mainPhase` — what `main` does between two barriers.
* `twiddle` — the table of twiddle factors.
* `Between` — the memory between two phases; `Between.shared`, `Between.own` — a phase.
* `transform_finishes`, `fft_exact` — the transform, in any order of the accesses.
-/

set_option autoImplicit false

namespace CachePool

namespace Fft

open Threads Linalg

universe u

/-- The generated header: the logarithms of the numbers of cores and of points of a core, and the arrays. -/
structure Header where
  log2Nfft1 : Nat
  log2Nfft2 : Nat
  out : Nat
  samplesDram : Nat
  bufferDram : Nat
  twiddleDram : Nat

namespace Header

variable (d : Header)

/-- `NFFT`. -/
def nfft : Nat := 2 ^ (d.log2Nfft1 + d.log2Nfft2)

def activeCores : Nat := 2 ^ d.log2Nfft1

/-- `NFFTpc`. -/
def nfftPc : Nat := d.nfft / d.activeCores

/-- `NTWI_P1`. -/
def ntwiP1 : Nat := d.nfft - d.nfft / 2 ^ d.log2Nfft1

/-- `NTWI_P2`. -/
def ntwiP2 : Nat := d.log2Nfft2 * d.nfftPc / 2

def storeIdxDram : Nat → Nat := storeIdx d.nfftPc

def coffsetDram : Nat → Nat := bitrev d.log2Nfft1

/-- The words of the table of twiddle factors. -/
def twiddles : Set Nat :=
  {a | d.twiddleDram ≤ a ∧ a < d.twiddleDram + 2 * (d.activeCores * d.ntwiP2 + d.ntwiP1)}

/-- There is more than one core, 16 bits are enough for the store indices, and the arrays do not overlap. -/
structure Fits : Prop where
  cores : 0 < d.log2Nfft1
  points : 0 < d.log2Nfft2 ∧ d.log2Nfft2 ≤ 14
  apart : Separate d.twiddles d.samplesDram d.bufferDram d.out d.nfft

end Header

/-- The variables of `main` that change from stage to stage. -/
structure Pointers where
  srcP1 : Nat
  bufP1 : Nat
  twiP1 : Nat
  p2Switch : Nat

/-- Their values before stage `i` of the first phase, or after the last one. -/
def pointers (d : Header) : Nat → Pointers
  | 0 => ⟨d.samplesDram, d.bufferDram, d.twiddleDram, 0⟩
  | i + 1 =>
    ⟨if i &&& 1 ≠ 0 then d.samplesDram else d.bufferDram, if i &&& 1 ≠ 0 then d.bufferDram else d.samplesDram,
      (pointers d i).twiP1 + d.nfft >>> (i + 1), i &&& 1⟩

variable {F : Type u} (U : FftUnit F) (d : Header)

/-- What core `cid` does between two barriers: stage `i` of the first phase, or the second phase. -/
def mainPhase (fuel i cid : Nat) (h : Hart F) : Code Nat F PUnit.{u + 1} :=
  let p := pointers d i
  let srcP2 := d.samplesDram + cid * d.nfftPc
  let bufP2 := d.bufferDram + cid * d.nfftPc
  let twiP2 := d.twiddleDram + d.ntwiP1 <<< 1
  let outP2 := d.out + d.coffsetDram cid
  if cid < d.activeCores then
    (if i < d.log2Nfft1 then
        fftP1 U p.srcP1 p.bufP1 p.twiP1 d.nfft d.ntwiP1 cid d.activeCores i (d.nfftPc >>> 1) fuel h
      else if p.p2Switch ≠ 0 then
        fftP2 U bufP2 srcP2 twiP2 outP2 d.storeIdxDram (d.nfft >>> d.log2Nfft1) d.nfft d.log2Nfft2
          (d.activeCores * 4) d.log2Nfft1 d.ntwiP2 fuel h
      else
        fftP2 U srcP2 bufP2 twiP2 outP2 d.storeIdxDram (d.nfft >>> d.log2Nfft1) d.nfft d.log2Nfft2
          (d.activeCores * 4) d.log2Nfft1 d.ntwiP2 fuel h).bind fun _ => .ret ⟨⟩
  else .ret ⟨⟩

/-- All cores, with what they have in their registers then. -/
def cores {numCores : Nat} (fuel : Nat) (hart : Nat → Fin numCores → Hart F) (i : Nat) (cid : Fin numCores) :
    Code Nat F PUnit.{u + 1} := mainPhase U d fuel i cid (hart i cid)

/-- Which twiddle factor the difference of butterfly `o` of sequence `k` has in stage `s`; the last stage has
none. -/
def twiddle (m : Nat → F) (s k o : Nat) : Option (F × F) :=
  if s < d.log2Nfft1 then
    let re := d.twiddleDram + (d.nfft - d.nfft >>> s) + o
    some (m re, m (re + d.ntwiP1))
  else if s + 1 < d.log2Nfft1 + d.log2Nfft2 then
    let q := (s - d.log2Nfft1) * (d.nfftPc >>> 1) + (k / d.activeCores * d.nfft >>> (s + 1) + o)
    let re := d.twiddleDram + 2 * d.ntwiP1
    some (m (re + q), m (re + d.ntwiP2 + q))
  else none

/-- `log2_nfft`. -/
def Header.log2Nfft : Nat := d.log2Nfft1 + d.log2Nfft2

/-- The samples. -/
def samples (m : Nat → F) (q : Nat) : F × F := (m (d.samplesDram + q), m (d.samplesDram + q + d.nfft))

/-! ## The constants -/

variable {d} {H : Nat}

theorem nfft_eq (hH : d.log2Nfft2 = H + 1) : d.nfft = 2 ^ (d.log2Nfft1 + H + 1) := by
  rw [Header.nfft, hH, Nat.add_assoc]

theorem log2Nfft_eq (hH : d.log2Nfft2 = H + 1) : d.log2Nfft = d.log2Nfft1 + H + 1 := by
  rw [Header.log2Nfft, hH, Nat.add_assoc]

theorem nfftPc_eq (hH : d.log2Nfft2 = H + 1) : d.nfftPc = 2 ^ (H + 1) := by
  rw [Header.nfftPc, Header.nfft, Header.activeCores, hH, Nat.pow_div (by omega) (by decide),
    Nat.add_sub_cancel_left]

theorem half_eq (hH : d.log2Nfft2 = H + 1) : d.nfftPc >>> 1 = 2 ^ H := by
  rw [nfftPc_eq hH, two_pow_shiftRight (by omega), Nat.add_sub_cancel]

theorem ntwiP2_eq (hH : d.log2Nfft2 = H + 1) : d.ntwiP2 = (H + 1) * 2 ^ H := by
  rw [Header.ntwiP2, nfftPc_eq hH, hH, Nat.pow_succ, ← Nat.mul_assoc, Nat.mul_div_cancel _ (by decide)]

theorem ntwiP1_eq (hH : d.log2Nfft2 = H + 1) : d.ntwiP1 + 2 ^ (H + 1) = 2 ^ (d.log2Nfft1 + H + 1) := by
  have hle : 2 ^ (H + 1) ≤ 2 ^ (d.log2Nfft1 + H + 1) := Nat.pow_le_pow_right (by decide) (by omega)
  have hpc : d.nfft / 2 ^ d.log2Nfft1 = 2 ^ (H + 1) := nfftPc_eq hH
  rw [Header.ntwiP1, hpc, nfft_eq hH]
  omega

/-- No loop over strips needs more passes than there are points. -/
theorem len_lt (hH : d.log2Nfft2 = H + 1) {fuel : Nat} (hfuel : d.nfft < fuel) : 2 ^ H < fuel := by
  rw [nfft_eq hH] at hfuel
  exact Nat.lt_of_le_of_lt (Nat.pow_le_pow_right (by decide) (by omega)) hfuel

/-! ## The pointers -/

theorem srcP1_eq (d : Header) (i : Nat) : (pointers d i).srcP1 = turn d.bufferDram d.samplesDram i := by
  cases i with
  | zero => rfl
  | succ i =>
    rw [turn_succ, turn, pointers, Nat.and_one_is_mod]
    by_cases h : i % 2 = 0 <;> simp [h]

theorem bufP1_eq (d : Header) (i : Nat) : (pointers d i).bufP1 = turn d.bufferDram d.samplesDram (i + 1) := by
  rw [turn_succ]
  cases i with
  | zero => rfl
  | succ i =>
    rw [turn_succ, turn, pointers, Nat.and_one_is_mod]
    by_cases h : i % 2 = 0 <;> simp [h]

theorem twiP1_eq (hH : d.log2Nfft2 = H + 1) {i : Nat} (hi : i ≤ d.log2Nfft1) :
    (pointers d i).twiP1 = d.twiddleDram + (d.nfft - d.nfft >>> i) := by
  induction i with
  | zero => rw [pointers, Nat.shiftRight_zero, Nat.sub_self, Nat.add_zero]
  | succ i ih =>
    have hthis : d.nfft >>> i = d.nfft >>> (i + 1) * 2 := by
      rw [nfft_eq hH, two_pow_shiftRight (by omega), two_pow_shiftRight (by omega)]
      exact (Nat.two_pow_pred_mul_two (w := d.log2Nfft1 + H + 1 - i) (by omega)).symm
    have hle : d.nfft >>> i ≤ d.nfft := Nat.shiftRight_le _ _
    rw [pointers, ih (by omega)]
    show d.twiddleDram + (d.nfft - d.nfft >>> i) + d.nfft >>> (i + 1) = _
    omega

/-- The block is in the second buffer of the two that `fft_p2` is given. -/
theorem mainPhase_own (hd : 0 < d.log2Nfft1) {fuel cid : Nat} (hcid : cid < d.activeCores) (h : Hart F) :
    mainPhase U d fuel d.log2Nfft1 cid h =
      (fftP2 U (turn d.samplesDram d.bufferDram d.log2Nfft1 + cid * d.nfftPc)
        (turn d.bufferDram d.samplesDram d.log2Nfft1 + cid * d.nfftPc) (d.twiddleDram + d.ntwiP1 <<< 1)
        (d.out + d.coffsetDram cid) d.storeIdxDram (d.nfft >>> d.log2Nfft1) d.nfft d.log2Nfft2
        (d.activeCores * 4) d.log2Nfft1 d.ntwiP2 fuel h).bind fun _ => .ret ⟨⟩ := by
  obtain ⟨l, hl⟩ : ∃ l, d.log2Nfft1 = l + 1 := ⟨d.log2Nfft1 - 1, by omega⟩
  rw [mainPhase, if_pos hcid, if_neg (Nat.lt_irrefl _), hl, turn_succ, turn_succ, turn, turn, pointers,
    Nat.and_one_is_mod]
  by_cases h0 : l % 2 = 0
  · simp [h0]
  · simp [h0]

/-! ## The twiddle factors -/

variable {m m' : Nat → F}

/-- The factors of a shared stage are where `fft_p1` looks for them. -/
theorem twiddle_shared (m : Nat → F) (hH : d.log2Nfft2 = H + 1) {i o : Nat} (hi : i < d.log2Nfft1)
    (ho : o < 2 ^ (d.log2Nfft1 + H - i)) (g : Nat) :
    twiddle d m i g o = some (m ((pointers d i).twiP1 + o), m ((pointers d i).twiP1 + o + d.ntwiP1)) ∧
      (pointers d i).twiP1 + o ∈ d.twiddles ∧ (pointers d i).twiP1 + o + d.ntwiP1 ∈ d.twiddles := by
  have hthis : 2 ^ (d.log2Nfft1 + H - i) * 2 = d.nfft >>> i := by
    rw [half_mul_two H hi, nfft_eq hH, two_pow_shiftRight (by omega)]
  have hle : 2 ^ (H + 1) ≤ 2 ^ (d.log2Nfft1 + H - i) := Nat.pow_le_pow_right (by decide) (by omega)
  have hwhole : d.nfft >>> i ≤ d.nfft := Nat.shiftRight_le _ _
  have hp1 := ntwiP1_eq hH
  rw [← nfft_eq hH] at hp1
  rw [twiP1_eq hH (by omega), twiddle, if_pos hi]
  have hin : d.nfft - d.nfft >>> i + o < d.ntwiP1 := by omega
  refine ⟨rfl, ⟨by omega, ?_⟩, ⟨by omega, ?_⟩⟩
  · rw [Nat.add_assoc, Nat.mul_add]
    omega
  · rw [Nat.add_assoc d.twiddleDram, Nat.mul_add]
    omega

/-- The factors of the stages of a core are where `fft_p2` looks for them. -/
theorem twiddle_own (hH : d.log2Nfft2 = H + 1) (hsame : ∀ a ∈ d.twiddles, m' a = m a) (c : Nat) :
    OwnTwiddles m' d.twiddles d.log2Nfft1 H (twiddle d m) c (d.twiddleDram + 2 * d.ntwiP1) d.ntwiP2 := by
  have hshared : ∀ bf < H, ∀ j < 2 ^ H, d.twiddleDram + 2 * d.ntwiP1 + (bf * 2 ^ H + j) ∈ d.twiddles ∧
      d.twiddleDram + 2 * d.ntwiP1 + d.ntwiP2 + (bf * 2 ^ H + j) ∈ d.twiddles := by
    intro bf hbf j hj
    have hle := Nat.mul_le_mul_right (2 ^ H) (Nat.succ_le_of_lt hbf)
    have hcopies : 1 * d.ntwiP2 ≤ d.activeCores * d.ntwiP2 := Nat.mul_le_mul_right _ (Nat.two_pow_pos _)
    have hp2 := ntwiP2_eq hH
    rw [Nat.succ_mul] at hle hp2
    exact ⟨⟨by omega, by omega⟩, by omega, by omega⟩
  refine ⟨fun bf hbf j hj => ?_, fun g => ?_, hshared⟩
  · have hseq : (bitrev d.log2Nfft1 c + 2 ^ d.log2Nfft1 * (j / 2 ^ (H - bf))) / d.activeCores =
        j / 2 ^ (H - bf) := by
      rw [Header.activeCores, Nat.add_mul_div_left _ _ (Nat.two_pow_pos _), Nat.div_eq_of_lt (bitrev_lt _ _),
        Nat.zero_add]
    have hhalf : d.nfft >>> (d.log2Nfft1 + bf + 1) = 2 ^ (H - bf) := by
      rw [nfft_eq hH, two_pow_shiftRight (by omega)]
      congr 1
      omega
    obtain ⟨hre, him⟩ := hshared bf hbf j hj
    rw [hsame _ hre, hsame _ him, twiddle, if_neg (by omega), if_pos (by omega), hseq, hhalf, half_eq hH,
      Nat.div_add_mod', Nat.add_sub_cancel_left]
  · rw [twiddle, if_neg (by omega), if_neg (by omega)]

/-! ## Phases -/

/-- The words of the arrays that are written. -/
def Header.arrays (d : Header) : Set Nat :=
  {a | (d.samplesDram ≤ a ∧ a < d.samplesDram + 2 * d.nfft) ∨
    (d.bufferDram ≤ a ∧ a < d.bufferDram + 2 * d.nfft) ∨ (d.out ≤ a ∧ a < d.out + 2 * d.nfft)}

/-- The memory before phase `i`, or at the end, where it was `m` first. -/
structure Between (U : FftUnit F) (d : Header) (m : Nat → F) (i : Nat) (m' : Nat → F) : Prop where
  frame : ∀ a, a ∉ d.arrays → m' a = m a
  array : i ≤ d.log2Nfft1 → Holds m' (turn d.bufferDram d.samplesDram i) d.nfft {q | q < d.nfft}
    (inOrder (stages U) d.log2Nfft (samples d m) (twiddle d m) i)
  result : i = d.log2Nfft1 + 1 → Holds m' d.out d.nfft {q | q < d.nfft}
    fun q => Dft.values (stages U) d.log2Nfft (samples d m) (twiddle d m) d.log2Nfft q 0

variable {U} {i fuel numCores : Nat}

theorem Between.same (h : Between U d m i m') (hd : d.Fits) : ∀ a ∈ d.twiddles, m' a = m a := by
  intro a ha
  refine h.frame a fun hmem => ?_
  have hshared := hd.apart.shared a ha
  rcases hmem with hmem | hmem | hmem <;> omega

/-- What core `cid` does in a shared stage. -/
theorem does_mainPhase (h : Between U d m i m') (hd : d.Fits) (hH : d.log2Nfft2 = H + 1)
    (hi : i < d.log2Nfft1) (hfuel : d.nfft < fuel) {cid : Nat} (hcid : cid < d.activeCores) (s : Hart F) :
    Does m' (region (turn d.bufferDram d.samplesDram i) d.nfft {q | q < d.nfft} ∪ d.twiddles)
      (mainPhase U d fuel i cid s)
      (cells (turn d.bufferDram d.samplesDram (i + 1)) d.nfft (share d.log2Nfft1 H i cid)
        (inOrder (stages U) d.log2Nfft (samples d m) (twiddle d m) (i + 1))) ⟨⟩ := by
  have harray := h.array (by omega)
  have hlen := len_lt hH hfuel
  have hsame := h.same hd
  rw [log2Nfft_eq hH, nfft_eq hH] at harray
  rw [mainPhase, if_pos hcid, if_pos hi, srcP1_eq, bufP1_eq, half_eq hH, log2Nfft_eq hH, nfft_eq hH]
  obtain ⟨l, hdoes⟩ := does_shared (U := U) (R := region (turn d.bufferDram d.samplesDram i)
      (2 ^ (d.log2Nfft1 + H + 1)) {q | q < 2 ^ (d.log2Nfft1 + H + 1)} ∪ d.twiddles)
    (turn d.bufferDram d.samplesDram i) (turn d.bufferDram d.samplesDram (i + 1)) (pointers d i).twiP1
    d.ntwiP1 hi hcid hlen s harray (by
      intro g o ho
      obtain ⟨hfactor, hre, him⟩ := twiddle_shared m hH hi ho g
      rw [hfactor, hsame _ hre, hsame _ him]) Set.subset_union_left (by
      intro o ho
      obtain ⟨-, hre, him⟩ := twiddle_shared m hH hi ho 0
      exact ⟨.inr hre, .inr him⟩)
  exact (hdoes.bind (f := fun _ => .ret PUnit.unit) (.ret PUnit.unit)).congr (Set.union_empty _)

/-- **A shared stage**, in any order of the accesses. -/
theorem Between.shared (h : Between U d m i m') (hd : d.Fits) (hi : i < d.log2Nfft1) (hfuel : d.nfft < fuel)
    (hcores : d.activeCores ≤ numCores) (hart : Nat → Fin numCores → Hart F) :
    ∃ k : Fin numCores → Nat, ∀ xs : List (Fin numCores), (∀ cid, k cid ≤ xs.count cid) →
      (∀ cid, ∃ r, ((pool m' (cores U d fuel hart i)).run xs).code cid = .ret r) ∧
      Between U d m (i + 1) ((pool m' (cores U d fuel hart i)).run xs).mem := by
  obtain ⟨H, hH⟩ : ∃ H, d.log2Nfft2 = H + 1 := ⟨d.log2Nfft2 - 1, by have := hd.points; omega⟩
  let W : Fin numCores → Set (Nat × F) := fun cid => {e | (cid : Nat) < d.activeCores ∧
    e ∈ cells (turn d.bufferDram d.samplesDram (i + 1)) d.nfft (share d.log2Nfft1 H i cid)
      (inOrder (stages U) d.log2Nfft (samples d m) (twiddle d m) (i + 1))}
  have hdoes : ∀ cid, Does m'
      (region (turn d.bufferDram d.samplesDram i) d.nfft {q | q < d.nfft} ∪ d.twiddles)
      (cores U d fuel hart i cid) (W cid) ⟨⟩ := by
    intro cid
    by_cases hcid : (cid : Nat) < d.activeCores
    · exact (does_mainPhase h hd hH hi hfuel hcid (hart i cid)).congr (by simp [W, hcid])
    · rw [cores, mainPhase, if_neg hcid]
      exact (Does.ret _).congr (by simp [W, hcid])
  have hplaces : ∀ cid : Nat, cid < d.activeCores → ∀ q ∈ share d.log2Nfft1 H i cid, q < d.nfft := by
    intro cid hcid q hq
    rw [nfft_eq hH]
    exact share_lt hi hcid hq
  have hbuffers := hd.apart.buffers
  have hread : ∀ cid a v, (a, v) ∈ W cid →
      a ∉ region (turn d.bufferDram d.samplesDram i) d.nfft {q | q < d.nfft} ∪ d.twiddles := by
    rintro cid a v ⟨hcid, hav⟩ (ha | ha)
    · have hwrite := region_lt (hplaces cid hcid) (region_of_cells hav)
      have hread := region_lt (fun _ => id) ha
      rw [turn_succ] at hwrite
      unfold turn at hwrite hread
      split at hwrite <;> split at hread <;> omega
    · have hwrite := region_lt (hplaces cid hcid) (region_of_cells hav)
      have hshared := hd.apart.shared a ha
      unfold turn at hwrite
      split at hwrite <;> omega
  obtain ⟨-, k, hend⟩ := threads_finish hdoes hread fun c c' a v v' hav hav' =>
    cells_agree (hplaces c hav.1) (hplaces c' hav'.1) hav.2 hav'.2
  refine ⟨k, fun xs hxs => ?_⟩
  obtain ⟨hret, hwritten⟩ := hend xs hxs
  refine ⟨fun cid => ⟨_, hret cid⟩, fun a ha => ?_, fun _ => ?_, by omega⟩
  · rw [hwritten.frame a, h.frame a ha]
    rintro cid v ⟨hcid, hav⟩
    have hwrite := region_lt (hplaces cid hcid) (region_of_cells hav)
    refine ha ?_
    unfold turn at hwrite
    split at hwrite
    · exact .inl hwrite
    · exact .inr (.inl hwrite)
  · refine holds_of_written hwritten fun q hq => ?_
    have hq : q < d.nfft := hq
    rw [nfft_eq hH] at hq
    obtain ⟨cid, hcid, hshare⟩ := exists_share hi hq
    have hlt : cid < d.activeCores := hcid
    exact ⟨⟨cid, by omega⟩, ⟨hlt, q, hshare, .inl rfl⟩, ⟨hlt, q, hshare, .inr rfl⟩⟩

/-- No word is one of two cores. -/
theorem ownRegion_apart {L s buf out c c' a : Nat} {S : Set Nat}
    (hsep : Separate S s buf out (2 ^ (L + H + 1))) (hc : c < 2 ^ L) (hc' : c' < 2 ^ L)
    (h : a ∈ ownRegion L H s buf out c) (h' : a ∈ ownRegion L H s buf out c') : c = c' := by
  have hbuffers := hsep.buffers
  have hresult := hsep.result
  have hin := fun p (h : a ∈ region p (2 ^ (L + H + 1)) (own H c)) => region_lt (fun q => own_lt hc) h
  have hin' := fun p (h : a ∈ region p (2 ^ (L + H + 1)) (own H c')) => region_lt (fun q => own_lt hc') h
  have hres := fun c (h : a ∈ region out (2 ^ (L + H + 1)) (results L H c)) =>
    region_lt (fun q hq => (results_lt hq).1) h
  have hsame : ∀ p, a ∈ region p (2 ^ (L + H + 1)) (own H c) → a ∈ region p (2 ^ (L + H + 1)) (own H c') →
      c = c' := by
    intro p h h'
    obtain ⟨q, hq, hq'⟩ := region_meet (fun q => own_lt hc) (fun q => own_lt hc') h h'
    rw [← own_div hq, own_div hq']
  rcases h with (h | h) | h <;> rcases h' with (h' | h') | h'
  · exact hsame s h h'
  · have := hin s h; have := hin' buf h'; omega
  · have := hin s h; have := hres c' h'; omega
  · have := hin buf h; have := hin' s h'; omega
  · exact hsame buf h h'
  · have := hin buf h; have := hres c' h'; omega
  · have := hres c h; have := hin' s h'; omega
  · have := hres c h; have := hin' buf h'; omega
  · obtain ⟨q, hq, hq'⟩ := region_meet (fun q hq => (results_lt hq).1) (fun q hq => (results_lt hq).1) h h'
    exact bitrev_inj hc hc' (by rw [← (results_lt hq).2, (results_lt hq').2])

/-- What core `cid` does in the second phase, alone. -/
theorem alone_mainPhase (h : Between U d m d.log2Nfft1 m') (hd : d.Fits) (hH : d.log2Nfft2 = H + 1)
    (hfuel : d.nfft < fuel) {cid : Nat} (hcid : cid < d.activeCores) (s : Hart F) :
    ∃ m'', Alone d.twiddles (ownRegion d.log2Nfft1 H (turn d.samplesDram d.bufferDram d.log2Nfft1)
        (turn d.bufferDram d.samplesDram d.log2Nfft1) d.out cid) m' (mainPhase U d fuel d.log2Nfft1 cid s) m''
        ⟨⟩ ∧
      Holds m'' d.out d.nfft (results d.log2Nfft1 H cid)
        fun q => Dft.values (stages U) d.log2Nfft (samples d m) (twiddle d m) d.log2Nfft q 0 := by
  have harray := h.array (Nat.le_refl _)
  have hapart := hd.apart
  have hlen := len_lt hH hfuel
  have hfits : H + 1 ≤ 14 := by
    have := hd.points
    omega
  have hpc : d.nfft >>> d.log2Nfft1 = 2 ^ (H + 1) := by
    rw [Nat.shiftRight_eq_div_pow]
    exact nfftPc_eq hH
  have htwi : d.ntwiP1 <<< 1 = 2 * d.ntwiP1 := by rw [Nat.shiftLeft_eq, Nat.pow_one, Nat.mul_comm]
  rw [log2Nfft_eq hH, nfft_eq hH] at harray
  rw [nfft_eq hH] at hapart
  have hin : Holds m' (turn d.bufferDram d.samplesDram d.log2Nfft1) (2 ^ (d.log2Nfft1 + H + 1)) (own H cid)
      (ownBlock U d.log2Nfft1 H (samples d m) (twiddle d m) cid 0) := by
    intro q hq
    have hwhole := harray q (own_lt hcid hq)
    obtain ⟨j, hj, rfl⟩ := hq
    rw [hwhole, ownBlock_at hj, block_zero _ _ _ _ _ hj, Nat.mul_comm]
  obtain ⟨m'', l, halone, hholds⟩ := alone_fftP2 s (hapart.turn d.log2Nfft1) hcid hfits hlen
    (twiddle_own hH (h.same hd) cid) hin
  rw [mainPhase_own U hd.cores hcid, log2Nfft_eq hH, nfftPc_eq hH, hpc, htwi, hH, Header.storeIdxDram,
    nfftPc_eq hH, nfft_eq hH]
  exact ⟨m'', halone.bind (f := fun _ => .ret PUnit.unit) ⟨0, .ret _ _⟩, hholds⟩

/-- **The second phase**, in any order of the accesses. -/
theorem Between.own (h : Between U d m d.log2Nfft1 m') (hd : d.Fits) (hfuel : d.nfft < fuel)
    (hcores : d.activeCores ≤ numCores) (hart : Nat → Fin numCores → Hart F) :
    ∃ k : Fin numCores → Nat, ∀ xs : List (Fin numCores), (∀ cid, k cid ≤ xs.count cid) →
      (∀ cid, ∃ r, ((pool m' (cores U d fuel hart d.log2Nfft1)).run xs).code cid = .ret r) ∧
      Between U d m (d.log2Nfft1 + 1) ((pool m' (cores U d fuel hart d.log2Nfft1)).run xs).mem := by
  obtain ⟨H, hH⟩ : ∃ H, d.log2Nfft2 = H + 1 := ⟨d.log2Nfft2 - 1, by have := hd.points; omega⟩
  have hapart := hd.apart.turn d.log2Nfft1
  rw [nfft_eq hH] at hapart
  let P : Fin numCores → Set Nat := fun cid => {a | (cid : Nat) < d.activeCores ∧
    a ∈ ownRegion d.log2Nfft1 H (turn d.samplesDram d.bufferDram d.log2Nfft1)
      (turn d.bufferDram d.samplesDram d.log2Nfft1) d.out cid}
  have halone : ∀ cid : Fin numCores, ∃ m'',
      Alone d.twiddles (P cid) m' (cores U d fuel hart d.log2Nfft1 cid) m'' ⟨⟩ ∧
      ((cid : Nat) < d.activeCores → Holds m'' d.out d.nfft (results d.log2Nfft1 H cid)
        fun q => Dft.values (stages U) d.log2Nfft (samples d m) (twiddle d m) d.log2Nfft q 0) := by
    intro cid
    by_cases hcid : (cid : Nat) < d.activeCores
    · obtain ⟨m'', halone, hholds⟩ := alone_mainPhase h hd hH hfuel hcid (hart d.log2Nfft1 cid)
      have hP : P cid = ownRegion d.log2Nfft1 H (turn d.samplesDram d.bufferDram d.log2Nfft1)
          (turn d.bufferDram d.samplesDram d.log2Nfft1) d.out cid := by simp [P, hcid]
      exact ⟨m'', hP ▸ halone, fun _ => hholds⟩
    · rw [cores, mainPhase, if_neg hcid]
      exact ⟨m', ⟨0, .ret _ _⟩, fun hcid' => absurd hcid' hcid⟩
  choose m'' halone hholds using halone
  have harrays : ∀ cid a, a ∈ P cid → a ∈ d.arrays := by
    rintro cid a ⟨hcid, ha⟩
    have hsize := nfft_eq hH
    rcases ha with (ha | ha) | ha
    · have hin := region_lt (fun q => own_lt hcid) ha
      unfold turn at hin
      split at hin
      · exact .inr (.inl (by omega))
      · exact .inl (by omega)
    · have hin := region_lt (fun q => own_lt hcid) ha
      unfold turn at hin
      split at hin
      · exact .inl (by omega)
      · exact .inr (.inl (by omega))
    · have hin := region_lt (fun q hq => (results_lt hq).1) ha
      exact .inr (.inr (by omega))
  obtain ⟨k, hend⟩ := regions_finish halone
    (fun c c' a ha ha' => Fin.ext (ownRegion_apart hapart ha.1 ha'.1 ha.2 ha'.2))
    (fun cid a ha hshared => by
      have hout := hd.apart.shared a hshared
      rcases harrays cid a ha with ha | ha | ha <;> omega)
  refine ⟨k, fun xs hxs => ?_⟩
  obtain ⟨hret, hregion, hrest⟩ := hend xs hxs
  refine ⟨fun cid => ⟨_, hret cid⟩, fun a ha => ?_, by omega, fun _ q hq => ?_⟩
  · rw [hrest a fun cid hmem => ha (harrays cid a hmem), h.frame a ha]
  · have hq : q < d.nfft := hq
    have hplace := hq
    rw [nfft_eq hH] at hplace
    obtain ⟨c, hc, hmem⟩ := exists_results hplace
    have hlt : c < d.activeCores := hc
    obtain ⟨hre, him⟩ := mem_region (p := d.out) (n := d.nfft) hmem
    rw [nfft_eq hH] at hre him
    rw [← hholds ⟨c, by omega⟩ hlt q hmem, nfft_eq hH, hregion ⟨c, by omega⟩ _ ⟨hlt, .inr hre⟩,
      hregion ⟨c, by omega⟩ _ ⟨hlt, .inr him⟩]

/-! ## The transform -/

/-- All phases. -/
theorem transform_finishes (U : FftUnit F) (hd : d.Fits) (m : Nat → F) (hart : Nat → Fin numCores → Hart F)
    (hcores : d.activeCores ≤ numCores) (hfuel : d.nfft < fuel) :
    ∃ k : Nat → (Nat → F) → Fin numCores → Nat, ∀ xs : Nat → List (Fin numCores),
      (∀ i < d.log2Nfft1 + 1, ∀ cid, k i (phases (cores U d fuel hart) xs m i) cid ≤ (xs i).count cid) →
      (∀ i < d.log2Nfft1 + 1, ∀ cid, ∃ r,
        ((pool (phases (cores U d fuel hart) xs m i) (cores U d fuel hart i)).run (xs i)).code cid = .ret r) ∧
      Between U d m (d.log2Nfft1 + 1) (phases (cores U d fuel hart) xs m (d.log2Nfft1 + 1)) := by
  have hfirst : Between U d m 0 m := by
    refine ⟨fun _ _ => rfl, fun _ q hq => ?_, by omega⟩
    rw [inOrder_zero _ _ _ _ (show q < 2 ^ d.log2Nfft from hq)]
    rfl
  refine phases_finish hfirst fun i m' hi h => ?_
  rcases Nat.lt_or_eq_of_le (Nat.le_of_lt_succ hi) with hi | rfl
  · exact h.shared hd hi hfuel hcores hart
  · exact h.own hd hfuel hcores hart

/-- **The transform is exact**, whatever the arithmetic is.  In every phase the accesses of the cores may
interleave as they like; once every core has had its accesses in each phase, the result has the values of the
transform for all frequencies in order, and nothing but the three arrays has changed. -/
theorem fft_exact (U : FftUnit F) (d : Header) (hd : d.Fits) (m : Nat → F)
    (hart : Nat → Fin numCores → Hart F) (hcores : d.activeCores ≤ numCores) (hfuel : d.nfft < fuel) :
    ∃ k : Nat → (Nat → F) → Fin numCores → Nat, ∀ xs : Nat → List (Fin numCores),
      (∀ i < d.log2Nfft1 + 1, ∀ cid, k i (phases (cores U d fuel hart) xs m i) cid ≤ (xs i).count cid) →
      (∀ i < d.log2Nfft1 + 1, ∀ cid, ∃ r,
        ((pool (phases (cores U d fuel hart) xs m i) (cores U d fuel hart i)).run (xs i)).code cid = .ret r) ∧
      (∀ q < d.nfft, (phases (cores U d fuel hart) xs m (d.log2Nfft1 + 1) (d.out + q),
          phases (cores U d fuel hart) xs m (d.log2Nfft1 + 1) (d.out + q + d.nfft)) =
        Dft.values (stages U) d.log2Nfft (samples d m) (twiddle d m) d.log2Nfft q 0) ∧
      ∀ a, a ∉ d.arrays → phases (cores U d fuel hart) xs m (d.log2Nfft1 + 1) a = m a := by
  obtain ⟨k, hend⟩ := transform_finishes U hd m hart hcores hfuel
  refine ⟨k, fun xs hxs => ?_⟩
  obtain ⟨hret, hlast⟩ := hend xs hxs
  exact ⟨hret, hlast.result rfl, hlast.frame⟩

/-- Two cores with 4 points each. -/
def smallHeader : Header := ⟨1, 2, 0, 16, 32, 48⟩

theorem smallHeader_fits : smallHeader.Fits where
  cores := by decide
  points := by decide
  apart := by
    refine ⟨.inl (by decide), ⟨.inr (by decide), .inr (by decide)⟩, fun a ha => ?_⟩
    have hle : 48 ≤ a := ha.1
    exact ⟨.inr (Nat.le_trans (by decide) hle), .inr (Nat.le_trans (by decide) hle),
      .inr (Nat.le_trans (by decide) hle)⟩

/-- Two cores of three transform the integers of a small memory. -/
theorem fft_exact_two :
    let hart : Nat → Fin 3 → Hart ℤ := fun _ _ => ⟨fun _ => 0, 0, 1⟩
    let code := cores (ringUnit ℤ) smallHeader 100 hart
    let m : Nat → ℤ := fun a => a
    ∃ k : Nat → (Nat → ℤ) → Fin 3 → Nat, ∀ xs : Nat → List (Fin 3),
      (∀ i < smallHeader.log2Nfft1 + 1, ∀ cid, k i (phases code xs m i) cid ≤ (xs i).count cid) →
      (∀ i < smallHeader.log2Nfft1 + 1, ∀ cid, ∃ r,
        ((pool (phases code xs m i) (code i)).run (xs i)).code cid = .ret r) ∧
      (∀ q < smallHeader.nfft, (phases code xs m (smallHeader.log2Nfft1 + 1) (smallHeader.out + q),
          phases code xs m (smallHeader.log2Nfft1 + 1) (smallHeader.out + q + smallHeader.nfft)) =
        Dft.values (stages (ringUnit ℤ)) smallHeader.log2Nfft (samples smallHeader m) (twiddle smallHeader m)
          smallHeader.log2Nfft q 0) ∧
      ∀ a, a ∉ smallHeader.arrays → phases code xs m (smallHeader.log2Nfft1 + 1) a = m a :=
  fft_exact (ringUnit ℤ) smallHeader smallHeader_fits (fun a => a) (fun _ _ => ⟨fun _ => 0, 0, 1⟩) (by decide)
    (by decide)

end Fft

end CachePool
