import CachePool.Fft.Phase1
import CachePool.Lib.Phases

/-!
# The stages of a core alone (`fft_p2`)

After the shared stages each core has a block of its own.  It goes on between two buffers: the wings of all
butterflies of a stage are the two halves of the block, so that the outputs have to be stored by index; the
outputs of the last stage go to their places in the result, with a stride.

* `fftP2` — the kernel; `p2Stage` — a stage; `p2Strip` — a strip of it.
* `does_p2Inner`, `does_p2Last` — what a stage reads and writes.
-/

set_option autoImplicit false

namespace CachePool

namespace Fft

open Threads Linalg

universe u

variable {F : Type u} (U : FftUnit F)

/-- The loop over strips: its body.  `o` are the pointers for the stores by index, which each strip begins
with; the index vector is kept apart from the registers. -/
def p2Strip (last : Bool) (o : Rows) (storeIdx : Nat → Nat) (stride strideE : Nat) (l : Locals F) :
    Code Nat F (ForInStep (Locals F)) :=
  let s := vsetvli U.toVectorUnit l.hart 4 l.avl
  let vl := s.vl
  (wings U l.inp s).bind fun s =>
    if last then
      (vsse32 U s 16 l.out.reU stride).bind fun s => (vsse32 U s 20 l.out.imU stride).bind fun s =>
        (vsse32 U s 0 l.out.reL stride).bind fun s => (vsse32 U s 4 l.out.imL stride).bind fun s =>
          .ret (.yield ⟨s, l.avl - vl, l.inp.add vl, l.out.add (vl <<< strideE), l.reTwi, l.imTwi, l.seqIdx⟩)
    else
      (vle32 U.toVectorUnit s 8 l.reTwi).bind fun s => (vle32 U.toVectorUnit s 12 l.imTwi).bind fun s =>
        let s := twiddleIm U (twiddleRe U s)
        let v12 := fun i => storeIdx (l.seqIdx + i)
        (vsuxei16 U s 16 o.reU v12).bind fun s => (vsuxei16 U s 20 o.imU v12).bind fun s =>
          (vsuxei16 U s 24 o.reL v12).bind fun s => (vsuxei16 U s 28 o.imL v12).bind fun s =>
            .ret (.yield ⟨s, l.avl - vl, l.inp.add vl, l.out, l.reTwi + vl, l.imTwi + vl, l.seqIdx + vl⟩)

/-- The body of the loop over `bf`. -/
def p2Stage (s buf out : Nat) (storeIdx : Nat → Nat) (nfft nfftOri log2Nfft stride strideE fuel bf : Nat)
    (l : Locals F) : Code Nat F (Locals F) :=
  let iBuf := if bf &&& 1 = 0 then buf else s
  let oBuf := if bf = log2Nfft - 1 then buf else if bf &&& 1 = 0 then s else buf
  whileDo (fun l => decide (l.avl > 0))
    (p2Strip U (bf == log2Nfft - 1) (rows oBuf (nfft >>> 2) nfftOri) storeIdx stride strideE) fuel
    { l with
      avl := nfft >>> 1, inp := rows iBuf (nfft >>> 1) nfftOri, out := rows out (nfftOri >>> 1) nfftOri }

/-- `fft_p2`. -/
def fftP2 (s buf twi out : Nat) (storeIdx : Nat → Nat) (nfft nfftOri log2Nfft stride strideE ntwi fuel : Nat)
    (h : Hart F) : Code Nat F (Locals F) :=
  forUp log2Nfft (p2Stage U s buf out storeIdx nfft nfftOri log2Nfft stride strideE fuel)
    ⟨h, 0, rows buf (nfft >>> 1) nfftOri, rows out (nfftOri >>> 1) nfftOri, twi, twi + ntwi, 0⟩

/-! ## What a stage does -/

variable {U} {m : Nat → F} {R : Set Nat}

/-- A strip of a stage that is not the last one. -/
theorem does_p2Strip (o : Rows) (storeIdx : Nat → Nat) (stride strideE : Nat) {l : Locals F}
    (havl : 0 < l.avl) (hread : ∀ i < l.avl,
      (l.inp.reU + i ∈ R ∧ l.inp.imU + i ∈ R ∧ l.inp.reL + i ∈ R ∧ l.inp.imL + i ∈ R) ∧
      l.reTwi + i ∈ R ∧ l.imTwi + i ∈ R) :
    ∃ j s', 0 < j ∧ j ≤ l.avl ∧ Does m R (p2Strip U false o storeIdx stride strideE l)
      {e | ∃ i < j, e ∈ outputs o (storeIdx (l.seqIdx + i) / 4) ((stages U).sum (l.inp.u m i) (l.inp.l m i))
        ((stages U).twist (some (m (l.reTwi + i), m (l.imTwi + i))) (l.inp.u m i) (l.inp.l m i))}
      (.yield ⟨s', l.avl - j, l.inp.add j, l.out, l.reTwi + j, l.imTwi + j, l.seqIdx + j⟩) := by
  have hle := U.vsetvl_le l.avl (4 * U.elems)
  have hpos := U.vsetvl_pos l.avl (4 * U.elems) havl (Nat.mul_pos (by decide) U.elems_pos)
  obtain ⟨s₁, hwings, hw⟩ := does_wings (m := m) (R := R) (q := l.inp)
    (ready_vsetvli (U := U) (s := l.hart) l.avl) fun i hi => (hread i (Nat.lt_of_lt_of_le hi hle)).1
  have hvl : s₁.vl = U.vsetvl l.avl (4 * U.elems) := hw.vl
  refine ⟨_, twiddleIm U (twiddleRe U (put U.toVectorUnit (put U.toVectorUnit s₁ 8 fun i => m (l.reTwi + i))
    12 fun i => m (l.imTwi + i))), hpos, hle, Does.congr (hwings.bind_empty ((does_vle32 ?_).bind_empty
      ((does_vle32 ?_).bind_empty ((does_storeAt _ _ _).bind ((does_storeAt _ _ _).bind
        ((does_storeAt _ _ _).bind ((does_storeAt _ _ _).bind (?_ : Does m R _ ∅ _)))))))) ?_⟩
  · exact fun i hi => (hread i (Nat.lt_of_lt_of_le (hvl ▸ hi) hle)).2.1
  · exact fun i hi => (hread i (Nat.lt_of_lt_of_le (hvl ▸ hi) hle)).2.2
  · exact .ret _
  · rw [Set.union_empty, ← hvl]
    refine outputs_rows (a := fun i => storeIdx (l.seqIdx + i) / 4)
      (u := fun i => (stages U).sum (l.inp.u m i) (l.inp.l m i))
      (l := fun i => (stages U).twist (some (m (l.reTwi + i), m (l.imTwi + i))) (l.inp.u m i) (l.inp.l m i))
      (fun i hi => ?_) fun i hi => ?_
    · exact (Prod.ext (el_twiddleIm hw.ready hi (.inl rfl)) (el_twiddleIm hw.ready hi (.inr rfl))).trans
        (hw.sum i (hw.vl ▸ hi))
    · exact el_twiddled hw.ready hi (hw.diff i (hw.vl ▸ hi))

/-- A strip of the last stage. -/
theorem does_p2Strip_last (o : Rows) (storeIdx : Nat → Nat) (stride strideE : Nat) {l : Locals F}
    (havl : 0 < l.avl)
    (hread : ∀ i < l.avl, l.inp.reU + i ∈ R ∧ l.inp.imU + i ∈ R ∧ l.inp.reL + i ∈ R ∧ l.inp.imL + i ∈ R) :
    ∃ j s', 0 < j ∧ j ≤ l.avl ∧ Does m R (p2Strip U true o storeIdx stride strideE l)
      {e | ∃ i < j, e ∈ outputs l.out (i * stride / 4) ((stages U).sum (l.inp.u m i) (l.inp.l m i))
        ((stages U).twist none (l.inp.u m i) (l.inp.l m i))}
      (.yield ⟨s', l.avl - j, l.inp.add j, l.out.add (j <<< strideE), l.reTwi, l.imTwi, l.seqIdx⟩) := by
  have hle := U.vsetvl_le l.avl (4 * U.elems)
  have hpos := U.vsetvl_pos l.avl (4 * U.elems) havl (Nat.mul_pos (by decide) U.elems_pos)
  obtain ⟨s₁, hwings, hw⟩ := does_wings (m := m) (R := R) (q := l.inp)
    (ready_vsetvli (U := U) (s := l.hart) l.avl) fun i hi => hread i (Nat.lt_of_lt_of_le hi hle)
  have hvl : s₁.vl = U.vsetvl l.avl (4 * U.elems) := hw.vl
  refine ⟨_, s₁, hpos, hle, Does.congr (hwings.bind_empty ((does_storeAt _ _ _).bind
    ((does_storeAt _ _ _).bind ((does_storeAt _ _ _).bind ((does_storeAt _ _ _).bind
      (?_ : Does m R _ ∅ _)))))) ?_⟩
  · exact .ret _
  · rw [Set.union_empty, ← hvl]
    exact outputs_rows (a := fun i => i * stride / 4) (fun i hi => hw.sum i (hw.vl ▸ hi))
      fun i hi => hw.diff i (hw.vl ▸ hi)

/-- A stage that is not the last one. -/
theorem does_p2Inner {n k : Nat} (storeIdx : Nat → Nat) (stride strideE : Nat) (inp o out : Rows)
    (reTwi imTwi seqIdx : Nat) (hk : n < k) (s : Hart F)
    (hread : ∀ i < n, (inp.reU + i ∈ R ∧ inp.imU + i ∈ R ∧ inp.reL + i ∈ R ∧ inp.imL + i ∈ R) ∧
      reTwi + i ∈ R ∧ imTwi + i ∈ R) :
    ∃ s', Does m R (whileDo (fun l => decide (l.avl > 0)) (p2Strip U false o storeIdx stride strideE) k
        ⟨s, n, inp, out, reTwi, imTwi, seqIdx⟩)
      {e | ∃ i < n, e ∈ outputs o (storeIdx (seqIdx + i) / 4) ((stages U).sum (inp.u m i) (inp.l m i))
        ((stages U).twist (some (m (reTwi + i), m (imTwi + i))) (inp.u m i) (inp.l m i))}
      ⟨s', n - n, inp.add n, out, reTwi + n, imTwi + n, seqIdx + n⟩ := by
  refine does_strips (m := m) (R := R) (n := n) (W := fun i => outputs o (storeIdx (seqIdx + i) / 4)
      ((stages U).sum (inp.u m i) (inp.l m i))
      ((stages U).twist (some (m (reTwi + i), m (imTwi + i))) (inp.u m i) (inp.l m i)))
    (fun d s => ⟨s, n - d, inp.add d, out, reTwi + d, imTwi + d, seqIdx + d⟩) (fun _ _ => rfl) ?_ hk s
  intro d s hd
  obtain ⟨j, s', hj, hle, hdoes⟩ := does_p2Strip (U := U) (m := m) (R := R) o storeIdx stride strideE
    (l := ⟨s, n - d, inp.add d, out, reTwi + d, imTwi + d, seqIdx + d⟩) (by show 0 < n - d; omega) (by
      intro i (hi : i < n - d)
      simp only [Rows.add, Nat.add_assoc]
      exact hread (d + i) (by omega))
  have hle : j ≤ n - d := hle
  refine ⟨j, s', hj, by omega, ?_⟩
  simpa only [Rows.add, Rows.u, Rows.l, Nat.add_assoc, Nat.sub_sub] using hdoes

/-- The last stage. -/
theorem does_p2Last {n k : Nat} (storeIdx : Nat → Nat) (strideE : Nat) (inp o out : Rows)
    (reTwi imTwi seqIdx : Nat) (hk : n < k) (s : Hart F)
    (hread : ∀ i < n, inp.reU + i ∈ R ∧ inp.imU + i ∈ R ∧ inp.reL + i ∈ R ∧ inp.imL + i ∈ R) :
    ∃ s', Does m R (whileDo (fun l => decide (l.avl > 0))
        (p2Strip U true o storeIdx (2 ^ strideE * 4) strideE) k ⟨s, n, inp, out, reTwi, imTwi, seqIdx⟩)
      {e | ∃ i < n, e ∈ outputs out (i * 2 ^ strideE) ((stages U).sum (inp.u m i) (inp.l m i))
        ((stages U).twist none (inp.u m i) (inp.l m i))}
      ⟨s', n - n, inp.add n, out.add (n <<< strideE), reTwi, imTwi, seqIdx⟩ := by
  have hstate : out = out.add (0 <<< strideE) := by simp [Rows.add]
  have h := does_strips (m := m) (R := R) (n := n)
    (b := p2Strip U true o storeIdx (2 ^ strideE * 4) strideE) (W := fun i => outputs out (i * 2 ^ strideE)
      ((stages U).sum (inp.u m i) (inp.l m i)) ((stages U).twist none (inp.u m i) (inp.l m i)))
    (fun d s => ⟨s, n - d, inp.add d, out.add (d <<< strideE), reTwi, imTwi, seqIdx⟩) (fun _ _ => rfl) ?_ hk s
  · rwa [← hstate] at h
  intro d s hd
  obtain ⟨j, s', hj, hle, hdoes⟩ := does_p2Strip_last (U := U) (m := m) (R := R) o storeIdx
    (2 ^ strideE * 4) strideE
    (l := ⟨s, n - d, inp.add d, out.add (d <<< strideE), reTwi, imTwi, seqIdx⟩) (by show 0 < n - d; omega) (by
      intro i (hi : i < n - d)
      simp only [Rows.add, Nat.add_assoc]
      exact hread (d + i) (by omega))
  have hle : j ≤ n - d := hle
  refine ⟨j, s', hj, by omega, ?_⟩
  have hplace : ∀ i, d <<< strideE + i * (2 ^ strideE * 4) / 4 = (d + i) * 2 ^ strideE := fun i => by
    rw [← Nat.mul_assoc, Nat.mul_div_cancel _ (by decide), Nat.shiftLeft_eq, Nat.add_mul]
  have hnext : d <<< strideE + j <<< strideE = (d + j) <<< strideE := by
    simp only [Nat.shiftLeft_eq, Nat.add_mul]
  simpa only [outputs, Rows.add, Rows.u, Rows.l, Nat.add_assoc, Nat.sub_sub, hplace, hnext] using hdoes

end Fft

end CachePool
