import CachePool.Fft.Shared

/-!
# The stages of a core on its block

A core goes from one buffer to the other and back with its block, and from the last of its stages to its
places in the result.

* `ownBlock` — the block before a stage; `does_own`, `does_ownLast` — its stages.
* `alone_fftP2` — the second phase of a core: of what it leaves the result has its share.
-/

set_option autoImplicit false

namespace CachePool

namespace Fft

open Threads Linalg

universe u

variable {F : Type u} {U : FftUnit F} {m : Nat → F} {R S : Set Nat} {L H : Nat} {x : Nat → F × F}
variable {w : Nat → Nat → Nat → Option (F × F)}

/-- The places of the block of core `c`. -/
def own (H c : Nat) : Set Nat := {q | ∃ j < 2 ^ (H + 1), q = c * 2 ^ (H + 1) + j}

/-- The places of its results. -/
def results (L H c : Nat) : Set Nat :=
  {q | ∃ j < 2 ^ H, q = bitrev L c + j * 2 ^ L ∨ q = bitrev L c + j * 2 ^ L + 2 ^ (L + H)}

/-- What lies at a place of its block before stage `bf`. -/
def ownBlock (U : FftUnit F) (L H : Nat) (x : Nat → F × F) (w : Nat → Nat → Nat → Option (F × F))
    (c bf q : Nat) : F × F := block (stages U) L H x w (bitrev L c) bf (q % 2 ^ (H + 1))

theorem ownBlock_at {c bf j : Nat} (hj : j < 2 ^ (H + 1)) : ownBlock U L H x w c bf (c * 2 ^ (H + 1) + j) =
    block (stages U) L H x w (bitrev L c) bf j := by
  rw [ownBlock, Nat.mul_comm, Nat.mul_add_mod, Nat.mod_eq_of_lt hj]

theorem own_lt {c q : Nat} (hc : c < 2 ^ L) (hq : q ∈ own H c) : q < 2 ^ (L + H + 1) := by
  obtain ⟨j, hj, rfl⟩ := hq
  have hle := Nat.mul_le_mul_right (2 ^ (H + 1)) (Nat.succ_le_of_lt hc)
  rw [← Nat.pow_add, Nat.succ_mul, ← Nat.add_assoc L] at hle
  omega

theorem own_div {c q : Nat} (hq : q ∈ own H c) : q / 2 ^ (H + 1) = c := by
  obtain ⟨j, hj, rfl⟩ := hq
  rw [Nat.mul_comm, Nat.mul_add_div (Nat.two_pow_pos _), Nat.div_eq_of_lt hj, Nat.add_zero]

theorem results_lt {c q : Nat} (hq : q ∈ results L H c) : q < 2 ^ (L + H + 1) ∧ q % 2 ^ L = bitrev L c := by
  obtain ⟨j, hj, hq⟩ := hq
  have hlt := bitrev_lt L c
  have hle := Nat.mul_le_mul_right (2 ^ L) (Nat.succ_le_of_lt hj)
  have htwo : 2 ^ (L + H + 1) = 2 ^ (L + H) + 2 ^ (L + H) := by rw [Nat.pow_succ, Nat.mul_two]
  have hsize : 2 ^ (L + H) = 2 ^ H * 2 ^ L := by rw [← Nat.pow_add, Nat.add_comm]
  rw [Nat.succ_mul, ← hsize] at hle
  rcases hq with rfl | rfl
  · exact ⟨by omega, by rw [Nat.add_mul_mod_self_right, Nat.mod_eq_of_lt hlt]⟩
  · exact ⟨by omega, by
      rw [hsize, Nat.add_mul_mod_self_right, Nat.add_mul_mod_self_right, Nat.mod_eq_of_lt hlt]⟩

/-- Every place is one of the core for its last bits. -/
theorem exists_results {q : Nat} (hq : q < 2 ^ (L + H + 1)) : ∃ c < 2 ^ L, q ∈ results L H c := by
  obtain ⟨c, hc, hrev⟩ := exists_bitrev (Nat.mod_lt q (Nat.two_pow_pos L))
  have hsize : 2 ^ (L + H) = 2 ^ H * 2 ^ L := by rw [← Nat.pow_add, Nat.add_comm]
  have hdiv := Nat.div_add_mod' q (2 ^ L)
  have hlt : q / 2 ^ L < 2 ^ (H + 1) := by
    rwa [Nat.div_lt_iff_lt_mul (Nat.two_pow_pos L), ← Nat.pow_add, Nat.add_right_comm, Nat.add_comm H]
  rw [Nat.pow_succ] at hlt
  by_cases hlow : q / 2 ^ L < 2 ^ H
  · exact ⟨c, hc, q / 2 ^ L, hlow, .inl (by omega)⟩
  · refine ⟨c, hc, q / 2 ^ L - 2 ^ H, by omega, .inr ?_⟩
    rw [hrev, hsize, Nat.sub_mul]
    have hle := Nat.mul_le_mul_right (2 ^ L) (Nat.le_of_not_lt hlow)
    omega

/-! ## Stages -/

/-- Where the block lies before stage `bf`. -/
def turn (s buf bf : Nat) : Nat := if bf % 2 = 0 then buf else s

theorem turn_succ (s buf bf : Nat) : turn s buf (bf + 1) = turn buf s bf := by
  unfold turn
  by_cases h : bf % 2 = 0
  · rw [if_pos h, if_neg (by omega)]
  · rw [if_neg h, if_pos (by omega)]

theorem turn_add (s buf bf d : Nat) : (if bf &&& 1 = 0 then buf + d else s + d) = turn s buf bf + d := by
  rw [turn, Nat.and_one_is_mod]
  split <;> rfl

/-- The two wings of butterfly `j`. -/
theorem own_wings (c : Nat) {j : Nat} (hj : j < 2 ^ H) :
    c * 2 ^ (H + 1) + j ∈ own H c ∧ c * 2 ^ (H + 1) + j + 2 ^ H ∈ own H c := by
  rw [own, Nat.pow_succ]
  exact ⟨⟨j, by omega, rfl⟩, ⟨j + 2 ^ H, by omega, by rw [Nat.add_assoc]⟩⟩

theorem ownBlock_wings (c bf : Nat) {j : Nat} (hj : j < 2 ^ H) :
    ownBlock U L H x w c bf (c * 2 ^ (H + 1) + j) = block (stages U) L H x w (bitrev L c) bf j ∧
      ownBlock U L H x w c bf (c * 2 ^ (H + 1) + j + 2 ^ H) =
        block (stages U) L H x w (bitrev L c) bf (j + 2 ^ H) := by
  have htwo : 2 ^ (H + 1) = 2 ^ H * 2 := by rw [Nat.pow_succ]
  rw [Nat.add_assoc]
  exact ⟨ownBlock_at (by omega), ownBlock_at (by omega)⟩

/-- **A stage of a core** that is not the last one brings the next block to the other buffer. -/
theorem does_own (s buf out c : Nat) {bf k : Nat} {l : Locals F} (hbf : bf < H) (hfits : H + 1 ≤ 14)
    (hk : 2 ^ H < k) (hseq : l.seqIdx = bf * 2 ^ H)
    (hin : Holds m (turn s buf bf) (2 ^ (L + H + 1)) (own H c) (ownBlock U L H x w c bf))
    (hw : ∀ j < 2 ^ H, w (L + bf) (bitrev L c + 2 ^ L * (j / 2 ^ (H - bf))) (j % 2 ^ (H - bf)) =
      some (m (l.reTwi + j), m (l.imTwi + j)))
    (hR : region (turn s buf bf) (2 ^ (L + H + 1)) (own H c) ⊆ R)
    (hRtwi : ∀ j < 2 ^ H, l.reTwi + j ∈ R ∧ l.imTwi + j ∈ R) :
    ∃ l', Does m R (p2Stage U (s + c * 2 ^ (H + 1)) (buf + c * 2 ^ (H + 1)) out (storeIdx (2 ^ (H + 1)))
        (2 ^ (H + 1)) (2 ^ (L + H + 1)) (H + 1) (2 ^ L * 4) L k bf l)
      (cells (turn s buf (bf + 1)) (2 ^ (L + H + 1)) (own H c) (ownBlock U L H x w c (bf + 1))) l' ∧
      l'.reTwi = l.reTwi + 2 ^ H ∧ l'.imTwi = l.imTwi + 2 ^ H ∧ l'.seqIdx = (bf + 1) * 2 ^ H := by
  have hhalf : 2 ^ (H + 1) >>> 1 = 2 ^ H := two_pow_shiftRight (by omega)
  have hquarter : 2 ^ (H + 1) >>> 2 = 2 ^ (H - 1) := by
    rw [two_pow_shiftRight (by omega)]
    rfl
  have hnotLast : (bf == H + 1 - 1) = false := beq_false_of_ne (by omega)
  unfold p2Stage
  simp only [hnotLast, hhalf, hquarter, turn_add, if_neg (show ¬ bf = H + 1 - 1 by omega)]
  rw [← turn_succ]
  obtain ⟨s', hdoes⟩ := does_p2Inner (U := U) (m := m) (R := R) (n := 2 ^ H) (storeIdx (2 ^ (H + 1)))
    (2 ^ L * 4) L (rows (turn s buf bf + c * 2 ^ (H + 1)) (2 ^ H) (2 ^ (L + H + 1)))
    (rows (turn s buf (bf + 1) + c * 2 ^ (H + 1)) (2 ^ (H - 1)) (2 ^ (L + H + 1)))
    (rows out (2 ^ (L + H + 1) >>> 1) (2 ^ (L + H + 1))) l.reTwi l.imTwi l.seqIdx hk l.hart (by
      intro j hj
      obtain ⟨h₁, h₂, h₃, h₄⟩ := rows_mem (p := turn s buf bf) (n := 2 ^ (L + H + 1)) (own_wings c hj).1
        (own_wings c hj).2
      exact ⟨⟨hR h₁, hR h₂, hR h₃, hR h₄⟩, hRtwi j hj⟩)
  refine ⟨_, hdoes.congr ?_, rfl, rfl, ?_⟩
  · have hplace : ∀ j < 2 ^ H, storeIdx (2 ^ (H + 1)) (l.seqIdx + j) / 4 =
        place (2 ^ H) (2 ^ (H - bf - 1)) j := fun j hj => by rw [hseq, storeIdx_eq hbf hj hfits]
    refine outputs_cells (place (2 ^ H) (2 ^ (H - bf - 1))) (fun j hj => ?_) fun q => ?_
    · obtain ⟨hu, hl⟩ := own_wings c hj
      obtain ⟨hsum, htwist⟩ := block_next (stages U) L H x w (bitrev L c) hbf hj (bitrev_lt L c)
      have hfirst := place_lt hbf hj (show 0 < 2 by decide)
      have hsecond := place_lt hbf hj (show 1 < 2 by decide)
      rw [Nat.zero_mul, Nat.add_zero] at hfirst
      rw [Nat.one_mul] at hsecond
      obtain ⟨hupper, hlower⟩ := ownBlock_wings (U := U) (L := L) (x := x) (w := w) c bf hj
      rw [rows_u hin hu, rows_l hin hl, hupper, hlower, ownBlock_at hfirst, hsum, Nat.add_assoc,
        ownBlock_at hsecond, htwist, hw j hj]
      exact ⟨hplace j hj, rfl, rfl⟩
    · constructor
      · rintro ⟨j, hj, rfl⟩
        obtain ⟨i, hi, b, hb, rfl⟩ := exists_place hbf hj
        refine ⟨i, hi, ?_⟩
        rcases Nat.le_one_iff_eq_zero_or_eq_one.mp (Nat.le_of_lt_succ hb) with rfl | rfl
        · exact .inl (by simp)
        · exact .inr (by rw [Nat.one_mul, Nat.add_assoc])
      · rintro ⟨j, hj, rfl | rfl⟩
        · exact ⟨_, by simpa using place_lt hbf hj (show 0 < 2 by decide), rfl⟩
        · exact ⟨_, by simpa using place_lt hbf hj (show 1 < 2 by decide), by rw [Nat.add_assoc]⟩
  · show l.seqIdx + 2 ^ H = _
    rw [hseq, Nat.succ_mul]

/-- **The last stage of a core** leaves its results. -/
theorem does_ownLast (s buf out c : Nat) {k : Nat} {l : Locals F} (hk : 2 ^ H < k)
    (hin : Holds m (turn s buf H) (2 ^ (L + H + 1)) (own H c) (ownBlock U L H x w c H))
    (hw : ∀ g, w (L + H) g 0 = none) (hR : region (turn s buf H) (2 ^ (L + H + 1)) (own H c) ⊆ R) :
    ∃ l', Does m R (p2Stage U (s + c * 2 ^ (H + 1)) (buf + c * 2 ^ (H + 1)) (out + bitrev L c)
        (storeIdx (2 ^ (H + 1))) (2 ^ (H + 1)) (2 ^ (L + H + 1)) (H + 1) (2 ^ L * 4) L k H l)
      (cells out (2 ^ (L + H + 1)) (results L H c)
        fun q => Dft.values (stages U) (L + H + 1) x w (L + H + 1) q 0) l' := by
  have hhalf : 2 ^ (H + 1) >>> 1 = 2 ^ H := two_pow_shiftRight (by omega)
  have hwhole : 2 ^ (L + H + 1) >>> 1 = 2 ^ (L + H) := two_pow_shiftRight (by omega)
  have hlast : (H == H + 1 - 1) = true := beq_self_eq_true H
  unfold p2Stage
  simp only [hlast, hhalf, hwhole, turn_add]
  obtain ⟨s', hdoes⟩ := does_p2Last (U := U) (m := m) (R := R) (n := 2 ^ H) (storeIdx (2 ^ (H + 1))) L
    (rows (turn s buf H + c * 2 ^ (H + 1)) (2 ^ H) (2 ^ (L + H + 1)))
    (rows (if H = H + 1 - 1 then buf + c * 2 ^ (H + 1) else turn buf s H + c * 2 ^ (H + 1))
      (2 ^ (H + 1) >>> 2) (2 ^ (L + H + 1)))
    (rows (out + bitrev L c) (2 ^ (L + H)) (2 ^ (L + H + 1))) l.reTwi l.imTwi l.seqIdx hk l.hart (by
      intro j hj
      obtain ⟨h₁, h₂, h₃, h₄⟩ := rows_mem (p := turn s buf H) (n := 2 ^ (L + H + 1)) (own_wings c hj).1
        (own_wings c hj).2
      exact ⟨hR h₁, hR h₂, hR h₃, hR h₄⟩)
  refine ⟨_, hdoes.congr ?_⟩
  refine outputs_cells (fun j => j * 2 ^ L) (fun j hj => ?_) fun _ => Iff.rfl
  obtain ⟨hu, hl⟩ := own_wings c hj
  obtain ⟨hsum, htwist⟩ := block_last (stages U) L H x w (bitrev_lt L c) hj
  obtain ⟨hupper, hlower⟩ := ownBlock_wings (U := U) (L := L) (x := x) (w := w) c H hj
  rw [rows_u hin hu, rows_l hin hl, hupper, hlower, hsum, htwist, hw]
  exact ⟨rfl, rfl, rfl⟩

/-! ## The second phase -/

/-- Three arrays of `n` complex numbers and what all cores read do not overlap. -/
structure Separate (S : Set Nat) (s buf out n : Nat) : Prop where
  buffers : s + 2 * n ≤ buf ∨ buf + 2 * n ≤ s
  result : (s + 2 * n ≤ out ∨ out + 2 * n ≤ s) ∧ (buf + 2 * n ≤ out ∨ out + 2 * n ≤ buf)
  shared : ∀ a ∈ S, (a < s ∨ s + 2 * n ≤ a) ∧ (a < buf ∨ buf + 2 * n ≤ a) ∧ (a < out ∨ out + 2 * n ≤ a)

theorem Separate.symm {s buf out n : Nat} (h : Separate S s buf out n) : Separate S buf s out n :=
  ⟨h.buffers.symm, h.result.symm, fun a ha => ⟨(h.shared a ha).2.1, (h.shared a ha).1, (h.shared a ha).2.2⟩⟩

theorem Separate.turn {s buf out n : Nat} (h : Separate S s buf out n) (bf : Nat) :
    Separate S (turn s buf bf) (turn buf s bf) out n := by
  unfold Fft.turn
  split
  · exact h.symm
  · exact h

/-- The words of core `c`: its block in both buffers, and its results. -/
def ownRegion (L H s buf out c : Nat) : Set Nat :=
  region s (2 ^ (L + H + 1)) (own H c) ∪ region buf (2 ^ (L + H + 1)) (own H c) ∪
    region out (2 ^ (L + H + 1)) (results L H c)

theorem turn_region (s buf out c bf : Nat) :
    region (turn s buf bf) (2 ^ (L + H + 1)) (own H c) ⊆ ownRegion L H s buf out c := by
  intro a ha
  unfold turn at ha
  split at ha
  · exact .inl (.inr ha)
  · exact .inl (.inl ha)

/-- A stretch that writes an array and reads none of it. -/
theorem alone_cells {P : Set Nat} {ρ : Type u} {code : Code Nat F ρ} {p n : Nat} {Q : Set Nat}
    {f : Nat → F × F} {r : ρ} (h : Does m R code (cells p n Q f) r) (hR : R ⊆ S ∪ P) (hP : region p n Q ⊆ P)
    (hapart : ∀ a ∈ region p n Q, a ∉ R) (hQ : ∀ q ∈ Q, q < n) :
    ∃ m', Alone S P m code m' r ∧ Holds m' p n Q f ∧ ∀ a, a ∉ region p n Q → m' a = m a := by
  obtain ⟨m', halone, hwritten⟩ := h.alone hR
    (fun a v hav => ⟨hP (region_of_cells hav), hapart a (region_of_cells hav)⟩)
    (fun a v v' hav hav' => cells_agree hQ hQ hav hav')
  refine ⟨m', halone, holds_of_written hwritten fun q hq => ⟨(), ⟨q, hq, .inl rfl⟩, ⟨q, hq, .inr rfl⟩⟩,
    fun a ha => ?_⟩
  exact hwritten.frame a fun _ v hav => ha (region_of_cells hav)

section Phase

variable {s buf out c : Nat} (hsep : Separate S s buf out (2 ^ (L + H + 1))) (hc : c < 2 ^ L)

include hsep hc

theorem turn_apart {bf a : Nat} (ha : a ∈ region (turn s buf (bf + 1)) (2 ^ (L + H + 1)) (own H c)) :
    a ∉ region (turn s buf bf) (2 ^ (L + H + 1)) (own H c) ∪ S := by
  have hbuffers := hsep.buffers
  have hin := region_lt (fun q => own_lt hc) ha
  rw [turn_succ] at hin
  unfold turn at hin
  rintro (ha' | ha')
  · have hin' := region_lt (fun q => own_lt hc) ha'
    unfold turn at hin'
    split at hin <;> split at hin' <;> omega
  · have hshared := hsep.shared a ha'
    split at hin <;> omega

theorem results_apart (bf : Nat) {a : Nat} (ha : a ∈ region out (2 ^ (L + H + 1)) (results L H c)) :
    a ∉ region (turn s buf bf) (2 ^ (L + H + 1)) (own H c) ∪ S := by
  have hresult := hsep.result
  have hin := region_lt (fun q hq => (results_lt hq).1) ha
  rintro (ha' | ha')
  · have hin' := region_lt (fun q => own_lt hc) ha'
    unfold turn at hin'
    split at hin' <;> omega
  · have hshared := hsep.shared a ha'
    omega

end Phase

/-- What the tables have for the stages of core `c`. -/
structure OwnTwiddles (m : Nat → F) (S : Set Nat) (L H : Nat) (w : Nat → Nat → Nat → Option (F × F))
    (c twi ntwi : Nat) : Prop where
  factor : ∀ bf < H, ∀ j < 2 ^ H, w (L + bf) (bitrev L c + 2 ^ L * (j / 2 ^ (H - bf))) (j % 2 ^ (H - bf)) =
    some (m (twi + (bf * 2 ^ H + j)), m (twi + ntwi + (bf * 2 ^ H + j)))
  last : ∀ g, w (L + H) g 0 = none
  shared : ∀ bf < H, ∀ j < 2 ^ H, twi + (bf * 2 ^ H + j) ∈ S ∧ twi + ntwi + (bf * 2 ^ H + j) ∈ S

/-- The memory and the variables of core `c` before stage `bf`, or at the end. -/
structure Before (U : FftUnit F) (m : Nat → F) (S : Set Nat) (L H : Nat) (x : Nat → F × F)
    (w : Nat → Nat → Nat → Option (F × F)) (s buf out c twi ntwi bf : Nat) (m' : Nat → F) (l : Locals F) :
    Prop where
  same : ∀ a ∈ S, m' a = m a
  pointers : bf ≤ H → l.reTwi = twi + bf * 2 ^ H ∧ l.imTwi = twi + ntwi + bf * 2 ^ H ∧ l.seqIdx = bf * 2 ^ H
  block : bf ≤ H → Holds m' (turn s buf bf) (2 ^ (L + H + 1)) (own H c) (ownBlock U L H x w c bf)
  result : bf = H + 1 → Holds m' out (2 ^ (L + H + 1)) (results L H c)
    fun q => Dft.values (stages U) (L + H + 1) x w (L + H + 1) q 0

variable {s buf out c twi ntwi bf k : Nat}

/-- A stage. -/
theorem Before.next {m' : Nat → F} {l : Locals F} (h : Before U m S L H x w s buf out c twi ntwi bf m' l)
    (hbf : bf < H + 1) (hsep : Separate S s buf out (2 ^ (L + H + 1))) (hc : c < 2 ^ L) (hfits : H + 1 ≤ 14)
    (hk : 2 ^ H < k) (htwi : OwnTwiddles m S L H w c twi ntwi) :
    ∃ m'' l', Alone S (ownRegion L H s buf out c) m' (p2Stage U (s + c * 2 ^ (H + 1)) (buf + c * 2 ^ (H + 1))
        (out + bitrev L c) (storeIdx (2 ^ (H + 1))) (2 ^ (H + 1)) (2 ^ (L + H + 1)) (H + 1) (2 ^ L * 4) L k bf
        l) m'' l' ∧
      Before U m S L H x w s buf out c twi ntwi (bf + 1) m'' l' := by
  obtain ⟨hre, him, hseq⟩ := h.pointers (by omega)
  have hR : region (turn s buf bf) (2 ^ (L + H + 1)) (own H c) ∪ S ⊆ S ∪ ownRegion L H s buf out c := by
    rintro a (ha | ha)
    · exact .inr (turn_region s buf out c bf ha)
    · exact .inl ha
  rcases Nat.lt_or_eq_of_le (Nat.le_of_lt_succ hbf) with hbf | rfl
  · have hat : ∀ j, l.reTwi + j = twi + (bf * 2 ^ H + j) ∧
        l.imTwi + j = twi + ntwi + (bf * 2 ^ H + j) := fun j => by
      rw [hre, him]
      exact ⟨Nat.add_assoc _ _ _, Nat.add_assoc _ _ _⟩
    obtain ⟨l', hdoes, hre', him', hseq'⟩ := does_own (U := U) (m := m') s buf (out + bitrev L c) c hbf hfits
      hk hseq (h.block (by omega)) (by
        intro j hj
        obtain ⟨hre₁, him₁⟩ := htwi.shared bf hbf j hj
        rw [(hat j).1, (hat j).2, h.same _ hre₁, h.same _ him₁]
        exact htwi.factor bf hbf j hj) Set.subset_union_left (by
        intro j hj
        rw [(hat j).1, (hat j).2]
        exact ⟨.inr (htwi.shared bf hbf j hj).1, .inr (htwi.shared bf hbf j hj).2⟩)
    obtain ⟨m'', halone, hholds, hframe⟩ := alone_cells hdoes hR (turn_region s buf out c (bf + 1))
      (fun a => turn_apart hsep hc) fun q => own_lt hc
    refine ⟨m'', l', halone, fun a ha => ?_, fun _ => ⟨?_, ?_, hseq'⟩, fun _ => hholds, by omega⟩
    · rw [hframe a fun hmem => turn_apart hsep hc hmem (.inr ha), h.same a ha]
    · rw [hre', hre, Nat.succ_mul, Nat.add_assoc]
    · rw [him', him, Nat.succ_mul, Nat.add_assoc]
  · obtain ⟨l', hdoes⟩ := does_ownLast (U := U) (m := m') s buf out c hk (h.block (Nat.le_refl bf)) htwi.last
      Set.subset_union_left
    obtain ⟨m'', halone, hholds, hframe⟩ := alone_cells hdoes hR (fun _ => .inr)
      (fun a => results_apart hsep hc bf) fun q hq => (results_lt hq).1
    refine ⟨m'', l', halone, fun a ha => ?_, by omega, by omega, fun _ => hholds⟩
    rw [hframe a fun hmem => results_apart hsep hc bf hmem (.inr ha), h.same a ha]

/-- **The second phase of a core**, alone. -/
theorem alone_fftP2 (h : Hart F) (hsep : Separate S s buf out (2 ^ (L + H + 1))) (hc : c < 2 ^ L)
    (hfits : H + 1 ≤ 14) (hk : 2 ^ H < k) (htwi : OwnTwiddles m S L H w c twi ntwi)
    (hin : Holds m buf (2 ^ (L + H + 1)) (own H c) (ownBlock U L H x w c 0)) :
    ∃ m' l, Alone S (ownRegion L H s buf out c) m (fftP2 U (s + c * 2 ^ (H + 1)) (buf + c * 2 ^ (H + 1)) twi
        (out + bitrev L c) (storeIdx (2 ^ (H + 1))) (2 ^ (H + 1)) (2 ^ (L + H + 1)) (H + 1) (2 ^ L * 4) L
        ntwi k h) m' l ∧
      Holds m' out (2 ^ (L + H + 1)) (results L H c)
        fun q => Dft.values (stages U) (L + H + 1) x w (L + H + 1) q 0 := by
  unfold fftP2
  obtain ⟨m', l, halone, hend⟩ := Alone.forUp (S := S) (P := ownRegion L H s buf out c) (m := m) (n := H + 1)
    (b := p2Stage U (s + c * 2 ^ (H + 1)) (buf + c * 2 ^ (H + 1)) (out + bitrev L c) (storeIdx (2 ^ (H + 1)))
      (2 ^ (H + 1)) (2 ^ (L + H + 1)) (H + 1) (2 ^ L * 4) L k)
    (s := ⟨h, 0, rows (buf + c * 2 ^ (H + 1)) (2 ^ (H + 1) >>> 1) (2 ^ (L + H + 1)),
      rows (out + bitrev L c) (2 ^ (L + H + 1) >>> 1) (2 ^ (L + H + 1)), twi, twi + ntwi, 0⟩)
    (I := Before U m S L H x w s buf out c twi ntwi)
    ⟨fun _ _ => rfl, fun _ => by simp, fun _ => hin, by omega⟩
    (fun _ _ _ hbf hbefore => hbefore.next hbf hsep hc hfits hk htwi)
  exact ⟨m', l, halone, hend.result rfl⟩

end Fft

end CachePool
