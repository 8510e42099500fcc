import CachePool.Lib.Dft
import CachePool.Linalg.VectorUnit

/-!
# Butterflies in vector registers (`fft-32b/kernel/fft.c`)

What the two phases of the transform have in common: the instructions on whole vectors, the wings of a strip
of butterflies, and the loop over strips.

* `FftUnit` — the unit with the other arithmetic the transform needs; `stages` — a butterfly in it.
* `wings`, `does_wings` — sums and differences of two rows of complex numbers.
* `el_twiddled` — the differences times the twiddle factors.
* `does_strips` — a loop over strips writes what its butterflies write.
-/

set_option autoImplicit false

namespace CachePool

namespace Fft

open Threads Linalg

universe u

/-- `fnmsac x y d` is `-(x * y) + d`. -/
structure FftUnit (F : Type u) extends VectorUnit F where
  fadd : F → F → F
  fsub : F → F → F
  fnmsac : F → F → F → F

/-- The small unit where it calculates in a ring. -/
def ringUnit (F : Type u) [Ring F] : FftUnit F where
  elems := smallUnit.elems
  vsetvl := smallUnit.vsetvl
  tail _ x := x
  fmul x y := x * y
  fmacc x y d := x * y + d
  zero := 0
  elems_pos := smallUnit.elems_pos
  vsetvl_le := smallUnit.vsetvl_le
  vsetvl_le_max := smallUnit.vsetvl_le_max
  vsetvl_pos := smallUnit.vsetvl_pos
  fadd x y := x + y
  fsub x y := x - y
  fnmsac x y d := -(x * y) + d

variable {F : Type u} (U : FftUnit F)

/-- A butterfly: the two outputs for the inputs `u` and `l`, the second one times a twiddle factor or, in the
last stage, without one. -/
def stages : Dft.Stages (F × F) (Option (F × F)) where
  sum u l := (U.fadd u.1 l.1, U.fadd u.2 l.2)
  twist
    | none, u, l => (U.fsub u.1 l.1, U.fsub u.2 l.2)
    | some t, u, l =>
      (U.fnmsac (U.fsub u.2 l.2) t.2 (U.fmul (U.fsub u.1 l.1) t.1),
        U.fmacc (U.fsub u.2 l.2) t.1 (U.fmul (U.fsub u.1 l.1) t.2))

/-! ## Instructions -/

section Instructions

variable (s : Hart F)

/-- Element `i` of `v`*r*. -/
def el (r i : Nat) : F := elem U.toVectorUnit s r i

/-- `vfadd.vv v`*rd*`, v`*r*`, v`*r'*. -/
def vfaddVv (rd r r' : Nat) : Hart F := put U.toVectorUnit s rd fun i => U.fadd (el U s r i) (el U s r' i)

/-- `vfsub.vv v`*rd*`, v`*r*`, v`*r'*. -/
def vfsubVv (rd r r' : Nat) : Hart F := put U.toVectorUnit s rd fun i => U.fsub (el U s r i) (el U s r' i)

/-- `vfmul.vv v`*rd*`, v`*r*`, v`*r'*. -/
def vfmulVv (rd r r' : Nat) : Hart F := put U.toVectorUnit s rd fun i => U.fmul (el U s r i) (el U s r' i)

/-- `vfmacc.vv v`*rd*`, v`*r*`, v`*r'*. -/
def vfmaccVv (rd r r' : Nat) : Hart F :=
  put U.toVectorUnit s rd fun i => U.fmacc (el U s r i) (el U s r' i) (el U s rd i)

/-- `vfnmsac.vv v`*rd*`, v`*r*`, v`*r'*. -/
def vfnmsacVv (rd r r' : Nat) : Hart F :=
  put U.toVectorUnit s rd fun i => U.fnmsac (el U s r i) (el U s r' i) (el U s rd i)

/-- A store of `v`*r* with an address for each element. -/
def storeAt (r : Nat) (address : Nat → Nat) : Code Nat F (Hart F) :=
  forUp s.vl (fun i s => .store (address i) (el U s r i) (.ret s)) s

/-- `vsse32.v v`*r*`, (p), stride`, with the stride in bytes. -/
def vsse32 (r p stride : Nat) : Code Nat F (Hart F) := storeAt U s r fun i => p + i * stride / 4

/-- `vsuxei16.v v`*r*`, (p)`, with offsets in bytes. -/
def vsuxei16 (r p : Nat) (offset : Nat → Nat) : Code Nat F (Hart F) := storeAt U s r fun i => p + offset i / 4

end Instructions

/-! ## Strips -/

/-- Pointers to the real and imaginary parts of two rows. -/
structure Rows where
  reU : Nat
  imU : Nat
  reL : Nat
  imL : Nat

/-- All pointers move by `n`. -/
def Rows.add (q : Rows) (n : Nat) : Rows := ⟨q.reU + n, q.imU + n, q.reL + n, q.imL + n⟩

/-- The complex number at place `i` of the upper row. -/
def Rows.u (q : Rows) (m : Nat → F) (i : Nat) : F × F := (m (q.reU + i), m (q.imU + i))

/-- The complex number at place `i` of the lower row. -/
def Rows.l (q : Rows) (m : Nat → F) (i : Nat) : F × F := (m (q.reL + i), m (q.imL + i))

/-- The variables of a loop over strips. -/
structure Locals (F : Type u) where
  hart : Hart F
  avl : Nat
  inp : Rows
  out : Rows
  reTwi : Nat
  imTwi : Nat
  seqIdx : Nat

/-- The first part of a strip: the sums in `v16` and `v20`, and the differences in `v0` and `v4`. -/
def wings (q : Rows) (s : Hart F) : Code Nat F (Hart F) :=
  (vle32 U.toVectorUnit s 0 q.reU).bind fun s => (vle32 U.toVectorUnit s 4 q.reL).bind fun s =>
    let s := vfsubVv U (vfaddVv U s 16 0 4) 0 0 4
    (vle32 U.toVectorUnit s 8 q.imU).bind fun s => (vle32 U.toVectorUnit s 12 q.imL).bind fun s =>
      .ret (vfsubVv U (vfaddVv U s 20 8 12) 4 8 12)

/-- The real parts of the differences times the twiddle factors in `v8` and `v12`, in `v24`. -/
def twiddleRe (s : Hart F) : Hart F := vfnmsacVv U (vfmulVv U s 24 0 8) 24 4 12

/-- The imaginary parts, in `v28`. -/
def twiddleIm (s : Hart F) : Hart F := vfmaccVv U (vfmulVv U s 28 0 12) 28 4 8

/-! ## What they do -/

/-- Groups of four registers, with vectors that fit. -/
structure Ready (s : Hart F) : Prop where
  lmul : s.lmul = 4
  vl : s.vl ≤ 4 * U.elems

variable {U} {s : Hart F} {r r' i : Nat} {f : Nat → F}

theorem ready_vsetvli (avl : Nat) : Ready U (vsetvli U.toVectorUnit s 4 avl) := ⟨rfl, U.vsetvl_le_max _ _⟩

@[simp] theorem ready_put : Ready U (put U.toVectorUnit s r f) ↔ Ready U s :=
  ⟨fun h => ⟨h.lmul, h.vl⟩, fun h => ⟨h.lmul, h.vl⟩⟩

/-- What an instruction leaves in a group. -/
theorem el_put (h : Ready U s ∧ i < s.vl) (hr : r' = r ∨ r' + 4 ≤ r ∨ r + 4 ≤ r') :
    el U (put U.toVectorUnit s r f) r' i = if r' = r then f i else el U s r' i := by
  obtain ⟨h, hi⟩ := h
  by_cases heq : r' = r
  · subst heq
    rw [if_pos rfl]
    exact elem_put_self hi
  · rw [if_neg heq]
    refine elem_put_of_apart (by rw [h.lmul]; exact h.vl) hi ?_
    rw [h.lmul]
    omega

variable {m : Nat → F} {R : Set Nat}

/-- A store of `s.vl` words to given addresses. -/
theorem does_storeAt (s : Hart F) (r : Nat) (address : Nat → Nat) :
    Does m R (storeAt U s r address) {e | ∃ i < s.vl, e = (address i, el U s r i)} s := by
  obtain ⟨s', hdoes, rfl⟩ := Does.forUp (m := m) (R := R)
    (b := fun i (s : Hart F) => .store (address i) (el U s r i) (.ret s))
    (I := fun _ s' => s' = s) (W := fun i => {(address i, el U s r i)}) (n := s.vl) rfl (by
      rintro n _ hn rfl
      exact ⟨_, (Does.store (.ret _)).congr (by simp), rfl⟩)
  exact hdoes.congr (by simp)

/-- The sums and differences of two rows. -/
structure Winged (U : FftUnit F) (m : Nat → F) (q : Rows) (s s' : Hart F) : Prop where
  vl : s'.vl = s.vl
  ready : Ready U s'
  sum : ∀ i < s.vl, (el U s' 16 i, el U s' 20 i) = (stages U).sum (q.u m i) (q.l m i)
  diff : ∀ i < s.vl, (el U s' 0 i, el U s' 4 i) = (stages U).twist none (q.u m i) (q.l m i)

theorem does_wings {q : Rows} (h : Ready U s) (hread : ∀ i < s.vl, q.reU + i ∈ R ∧ q.imU + i ∈ R ∧
    q.reL + i ∈ R ∧ q.imL + i ∈ R) : ∃ s', Does m R (wings U q s) ∅ s' ∧ Winged U m q s s' := by
  refine ⟨_, (does_vle32 ?_).bind_empty ((does_vle32 ?_).bind_empty ((does_vle32 ?_).bind_empty
    ((does_vle32 ?_).bind_empty (.ret _)))), ?_⟩
  · exact fun i hi => (hread i hi).1
  · exact fun i hi => (hread i hi).2.2.1
  · exact fun i hi => (hread i hi).2.1
  · exact fun i hi => (hread i hi).2.2.2
  constructor
  · rfl
  · simpa [vfsubVv, vfaddVv] using h
  · intro i hi
    simp [vfsubVv, vfaddVv, el_put, h, hi, stages, Rows.u, Rows.l]
  · intro i hi
    simp [vfsubVv, vfaddVv, el_put, h, hi, stages, Rows.u, Rows.l]

/-- The differences times the twiddle factors; the sums stay. -/
theorem el_twiddled {u l : F × F} {re im : Nat → F} (h : Ready U s) (hi : i < s.vl)
    (hdiff : (el U s 0 i, el U s 4 i) = (stages U).twist none u l) :
    (el U (twiddleIm U (twiddleRe U (put U.toVectorUnit (put U.toVectorUnit s 8 re) 12 im))) 24 i,
      el U (twiddleIm U (twiddleRe U (put U.toVectorUnit (put U.toVectorUnit s 8 re) 12 im))) 28 i) =
      (stages U).twist (some (re i, im i)) u l := by
  obtain ⟨h0, h4⟩ := Prod.mk.inj hdiff
  simp [twiddleIm, twiddleRe, vfmaccVv, vfmulVv, vfnmsacVv, el_put, h, hi, h0, h4, stages]

theorem el_twiddleRe {re im : Nat → F} (h : Ready U s) (hi : i < s.vl) (hr : r = 16 ∨ r = 20) :
    el U (twiddleRe U (put U.toVectorUnit (put U.toVectorUnit s 8 re) 12 im)) r i = el U s r i := by
  rcases hr with rfl | rfl <;> simp [twiddleRe, vfmulVv, vfnmsacVv, el_put, h, hi]

theorem el_twiddleIm {re im : Nat → F} (h : Ready U s) (hi : i < s.vl) (hr : r = 16 ∨ r = 20) :
    el U (twiddleIm U (twiddleRe U (put U.toVectorUnit (put U.toVectorUnit s 8 re) 12 im))) r i =
      el U s r i := by
  rcases hr with rfl | rfl <;> simp [twiddleIm, twiddleRe, vfmaccVv, vfmulVv, vfnmsacVv, el_put, h, hi]

/-- The outputs of a butterfly, written at `a` behind the pointers. -/
def outputs (q : Rows) (a : Nat) (u l : F × F) : Set (Nat × F) :=
  {(q.reU + a, u.1), (q.imU + a, u.2), (q.reL + a, l.1), (q.imL + a, l.2)}

/-- Rows of outputs, each written by a store of its own. -/
theorem outputs_rows {n : Nat} {q : Rows} {a : Nat → Nat} {u l : Nat → F × F} {reU imU reL imL : Nat → F}
    (hu : ∀ i < n, (reU i, imU i) = u i) (hl : ∀ i < n, (reL i, imL i) = l i) :
    ({e | ∃ i < n, e = (q.reU + a i, reU i)} ∪ ({e | ∃ i < n, e = (q.imU + a i, imU i)} ∪
      ({e | ∃ i < n, e = (q.reL + a i, reL i)} ∪ {e | ∃ i < n, e = (q.imL + a i, imL i)}))) =
      {e | ∃ i < n, e ∈ outputs q (a i) (u i) (l i)} := by
  ext e
  simp only [Set.mem_union, Set.mem_ofPred_eq, ← exists_or, ← and_or_left]
  refine exists_congr fun i => and_congr_right fun hi => ?_
  rw [outputs, ← hu i hi, ← hl i hi]
  rfl

/-- **A loop over strips** of `n` butterflies writes what each of them writes.  `state d` are the variables
when `d` are done. -/
theorem does_strips {b : Locals F → Code Nat F (ForInStep (Locals F))} {n k : Nat}
    (state : Nat → Hart F → Locals F) (hleft : ∀ d s, (state d s).avl = n - d) {W : Nat → Set (Nat × F)}
    (hbody : ∀ d s, d < n → ∃ j s', 0 < j ∧ d + j ≤ n ∧
      Does m R (b (state d s)) {e | ∃ i < j, e ∈ W (d + i)} (.yield (state (d + j) s')))
    (hk : n < k) (s : Hart F) : ∃ s', Does m R (whileDo (fun l => decide (l.avl > 0)) b k (state 0 s))
      {e | ∃ i < n, e ∈ W i} (state n s') := by
  obtain ⟨W', l, hdoes, s', hl, hW⟩ := Does.whileDo (m := m) (R := R) (n := k) (W := ∅) (s := state 0 s)
    (c := fun l : Locals F => decide (l.avl > 0)) (b := b) (f := fun l : Locals F => l.avl)
    (I := fun (l : Locals F) W' => ∃ d s, l = state d s ∧ d ≤ n ∧ W' = {e | ∃ i < d, e ∈ W i})
    (Q := fun (l : Locals F) W' => ∃ s, l = state n s ∧ W' = {e | ∃ i < n, e ∈ W i})
    (by
      rintro l _ ⟨d, s, rfl, hd, rfl⟩ hexit
      have hleft := hleft d s
      have havl : ¬ (state d s).avl > 0 := by simpa using hexit
      obtain rfl : d = n := by omega
      exact ⟨s, rfl, rfl⟩)
    (by
      rintro l _ ⟨d, s, rfl, hd, rfl⟩ hmore
      have hd' := hleft d s
      have havl : (state d s).avl > 0 := by simpa using hmore
      obtain ⟨j, s', hj, hle, hdoes⟩ := hbody d s (by omega)
      have hless : (state (d + j) s').avl < (state d s).avl := by
        rw [hleft, hleft]
        omega
      refine ⟨_, _, hdoes, ⟨d + j, s', rfl, hle, ?_⟩, hless⟩
      ext e
      constructor
      · rintro (⟨i, hi, he⟩ | ⟨i, hi, he⟩)
        · exact ⟨i, by omega, he⟩
        · exact ⟨d + i, by omega, he⟩
      · rintro ⟨i, hi, he⟩
        by_cases hlt : i < d
        · exact Or.inl ⟨i, hlt, he⟩
        · exact Or.inr ⟨i - d, by omega, by rwa [Nat.add_sub_cancel' (by omega)]⟩)
    (by rw [hleft]; omega) ⟨0, s, rfl, Nat.zero_le n, by simp⟩
  subst hl
  exact ⟨s', hdoes.congr (by rw [← hW, Set.empty_union])⟩

end Fft

end CachePool
