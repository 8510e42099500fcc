import CachePool.Linalg.VectorUnit
import Mathlib.Data.List.Rotate

/-!
# The product of a matrix and a vector (`gemv-opt/kernel/gemv.c`, `gemv-opt/main.c`)

Every core has a share of the rows.  So that the cores do not all begin in one memory channel, each begins the
sums of its rows at a column of its own, goes on to the last, and makes up for the columns before.

* `gemv` — what the three kernels have in common; `core` — how `main` calls them.
* `rowSum` — an element of the result, with the columns in a given order.
* `does_gemv` — a kernel; `gemv_exact` — all cores, in any order of their accesses.
-/

set_option autoImplicit false

namespace CachePool

namespace Linalg

namespace Gemv

open Threads

universe u

/-- The variables of a kernel: the registers, `a_p`, `b_p`, `c_p`, `avl` and `row_off`. -/
structure Locals (F : Type u) where
  hart : Hart F
  aP : Nat
  bP : Nat
  cP : Nat
  avl : Nat
  rowOff : Nat

variable {F : Type u} (U : VectorUnit F) (lmul : Nat)

/-- The loop over `n` columns. -/
def columns (M n : Nat) (l : Locals F) : Code Nat F (Locals F) :=
  forUp n (fun _ l =>
    (vle32 U l.hart 0 l.aP).bind fun s => .load l.bP fun t =>
      .ret { l with hart := vfmaccVf U s 4 t 0, aP := l.aP + M, bP := l.bP + 1 }) l

/-- The body of `while (avl > 0)`. -/
def strip (a b c aOffset bOffset M N nComp : Nat) (l : Locals F) : Code Nat F (ForInStep (Locals F)) :=
  let s := vmvVi U (vsetvli U l.hart lmul l.avl) 4
  (columns U M N { l with hart := s }).bind fun l =>
    (columns U M nComp { l with aP := a + l.rowOff, bP := b }).bind fun l =>
      (vse32 U l.hart 4 l.cP).bind fun s =>
        let rowOff := l.rowOff + s.vl
        .ret (.yield ⟨s, aOffset + rowOff, bOffset, c + rowOff, l.avl - s.vl, rowOff⟩)

/-- `gemv_v32b_m`*lmul*. -/
def gemv (a b c aOffset bOffset M N mCore nComp fuel : Nat) (s : Hart F) : Code Nat F (Locals F) :=
  whileDo (fun l => decide (l.avl > 0)) (strip U lmul a b c aOffset bOffset M N nComp) fuel
    ⟨s, aOffset, bOffset, c, mCore, 0⟩

/-- `gemv_v32b_m4`. -/
def gemvV32bM4 : Nat → Nat → Nat → Nat → Nat → Nat → Nat → Nat → Nat → Nat → Hart F → Code Nat F (Locals F) :=
  gemv U 4

/-- `gemv_v32b_m2`. -/
def gemvV32bM2 : Nat → Nat → Nat → Nat → Nat → Nat → Nat → Nat → Nat → Nat → Hart F → Code Nat F (Locals F) :=
  gemv U 2

/-- `gemv_v32b_m1`. -/
def gemvV32bM1 : Nat → Nat → Nat → Nat → Nat → Nat → Nat → Nat → Nat → Nat → Hart F → Code Nat F (Locals F) :=
  gemv U 1

/-! ## What a core is given -/

/-- `l2_block_size / 8`. -/
def l2BlockBytes : Nat := 512 * 16 / 8

/-- `l2_block_cols`: the columns of `M` words that a block of the memory holds, at least one. -/
def l2BlockCols (M : Nat) : Nat := (l2BlockBytes + M * 4 - 1) / (M * 4)

/-- `col_shift`. -/
def colShift (M N cid : Nat) : Nat := cid * l2BlockCols M % N

/-- `lmul`, for the rows of a core; with less than 16 `main` gives up. -/
def lmulOf (mCore : Nat) : Option Nat :=
  let lmulMax := mCore / 16
  if lmulMax ≥ 4 then some 4 else if lmulMax ≥ 2 then some 2 else if lmulMax = 1 then some 1 else none

/-- `l2_block_elem`. -/
def l2BlockElem : Nat := 512 * 16 / 32

/-- `lmul`, if `main` comes to a kernel: it also gives up if a core's rows are less than a block of the
memory.
-/
def kernelLmul (M N numCores : Nat) : Option Nat :=
  (lmulOf (M / numCores)).bind fun lmul =>
    let blockElemCore := M / numCores * N
    if blockElemCore < l2BlockElem then none else some lmul

/-- The call of `main`. -/
def call (lmul : Nat) : Nat → Nat → Nat → Nat → Nat → Nat → Nat → Nat → Nat → Nat → Hart F →
    Code Nat F (Locals F) :=
  if lmul = 4 then gemvV32bM4 U else if lmul = 2 then gemvV32bM2 U else gemvV32bM1 U

/-- What core `cid` does for a matrix at `a` of `N` columns of `M` words, a vector at `b` and a result at `c`:
nothing where `main` returns -1. -/
def core {numCores : Nat} (a b c M N fuel : Nat) (s : Fin numCores → Hart F) (cid : Fin numCores) :
    Code Nat F (Option (Locals F)) :=
  match kernelLmul M N numCores with
  | none => .ret none
  | some lmul =>
    let mCore := M / numCores
    let shift := colShift M N cid
    let aCore := a + mCore * cid
    (call U lmul aCore b (c + mCore * cid) (aCore + shift * M) (b + shift) M (N - shift) mCore shift fuel
      (s cid)).bind fun l => .ret (some l)

/-! ## What they are to compute -/

/-- The products of row `r` with the vector, added to 0 in the order of `cols`. -/
def rowSum (m : Nat → F) (a b M : Nat) (cols : List Nat) (r : Nat) : F :=
  cols.foldl (fun d k => U.fmacc (m (b + k)) (m (a + k * M + r)) d) U.zero

/-- All columns, from number `shift` on. -/
def columnsFrom (N shift : Nat) : List Nat := (List.range N).rotate shift

theorem columnsFrom_eq {N shift : Nat} (h : shift ≤ N) :
    columnsFrom N shift = (List.range (N - shift)).map (shift + ·) ++ List.range shift := by
  obtain ⟨n, rfl⟩ := Nat.exists_eq_add_of_le h
  rw [columnsFrom, List.range_add, List.rotate_eq_drop_append_take (by simp), Nat.add_sub_cancel_left]
  simp

/-! ## A kernel -/

variable {U lmul} {m : Nat → F} {R : Set Nat} {a b c M N mCore shift len : Nat}

/-- The sums of the rows of a strip after a loop over columns, for vectors of `len` elements. -/
theorem does_columns {n : Nat} {l : Locals F} (hvl : l.hart.vl = len) (hlmul : l.hart.lmul = lmul)
    (h4 : lmul ≤ 4) (hlen : len ≤ lmul * U.elems) (hreadA : ∀ k < n, ∀ j < len, l.aP + k * M + j ∈ R)
    (hreadB : ∀ k < n, l.bP + k ∈ R) :
    ∃ l', Does m R (columns U M n l) ∅ l' ∧ l'.hart.vl = len ∧ l'.hart.lmul = lmul ∧
      (l'.cP = l.cP ∧ l'.avl = l.avl ∧ l'.rowOff = l.rowOff) ∧
      ∀ j < len, elem U l'.hart 4 j = (List.range n).foldl
        (fun d k => U.fmacc (m (l.bP + k)) (m (l.aP + k * M + j)) d) (elem U l.hart 4 j) := by
  obtain ⟨l', hdoes, hvl', hlmul', hkept, -, -, hsum⟩ := Does.forUp (m := m) (R := R) (n := n) (s := l)
    (b := fun _ l => (vle32 U l.hart 0 l.aP).bind fun s => .load l.bP fun t =>
      .ret { l with hart := vfmaccVf U s 4 t 0, aP := l.aP + M, bP := l.bP + 1 })
    (I := fun k l' => l'.hart.vl = len ∧ l'.hart.lmul = lmul ∧
      (l'.cP = l.cP ∧ l'.avl = l.avl ∧ l'.rowOff = l.rowOff) ∧ l'.aP = l.aP + k * M ∧ l'.bP = l.bP + k ∧
      ∀ j < len, elem U l'.hart 4 j = (List.range k).foldl
        (fun d k => U.fmacc (m (l.bP + k)) (m (l.aP + k * M + j)) d) (elem U l.hart 4 j))
    (W := fun _ => ∅) ⟨hvl, hlmul, ⟨rfl, rfl, rfl⟩, by simp, rfl, fun j _ => rfl⟩ (by
      rintro k l' hk ⟨hs, hm, hkept, ha, hb, hsum⟩
      have hload := does_vle32 (U := U) (s := l'.hart) (r := 0) (p := l'.aP) (m := m) (R := R) (by
        intro j hj
        rw [ha]
        exact hreadA k hk j (by rwa [hs] at hj))
      have hfits : l'.hart.vl ≤ l'.hart.lmul * U.elems := by rwa [hs, hm]
      refine ⟨_, hload.bind_empty (.load (by rw [hb]; exact hreadB k hk) (.ret _)), hs, hm, hkept, ?_, ?_, ?_⟩
      · show l'.aP + M = _
        rw [ha, Nat.succ_mul, Nat.add_assoc]
      · show l'.bP + 1 = _
        rw [hb, Nat.add_assoc]
      · intro j hj
        have hself : elem U (vfmaccVf U (put U l'.hart 0 fun i => m (l'.aP + i)) 4 (m l'.bP) 0) 4 j =
            U.fmacc (m l'.bP) (m (l'.aP + j)) (elem U l'.hart 4 j) := by
          unfold vfmaccVf
          rw [elem_put_self (by rwa [put_vl, hs]), elem_put_self (by rwa [hs]),
            elem_put_of_apart hfits (by rwa [hs]) (Or.inr (by rw [hm, Nat.zero_add]; exact h4))]
        show elem U (vfmaccVf U _ 4 _ 0) 4 j = _
        rw [hself, hsum j hj, ha, hb, List.range_succ, List.foldl_append]
        rfl)
  exact ⟨l', hdoes.congr (by simp), hvl', hlmul', hkept, hsum⟩

/-- **A strip**: the columns from `shift` on, and then those before, make up the sums of all columns. -/
theorem does_strip {l : Locals F} (hN : shift ≤ N) (h1 : 0 < lmul) (h4 : lmul ≤ 4) (havl : 0 < l.avl)
    (haP : l.aP = a + shift * M + l.rowOff) (hbP : l.bP = b + shift)
    (hreadA : ∀ k < N, ∀ r, r < l.rowOff + l.avl → a + k * M + r ∈ R) (hreadB : ∀ k < N, b + k ∈ R) :
    ∃ vl s, (0 < vl ∧ vl ≤ l.avl) ∧
      Does m R (strip U lmul a b c (a + shift * M) (b + shift) M (N - shift) shift l)
      {e | ∃ j < vl, e = (l.cP + j, rowSum U m a b M (columnsFrom N shift) (l.rowOff + j))}
      (.yield ⟨s, a + shift * M + (l.rowOff + vl), b + shift, c + (l.rowOff + vl), l.avl - vl,
        l.rowOff + vl⟩) := by
  have hle := U.vsetvl_le l.avl (lmul * U.elems)
  have hpos := U.vsetvl_pos l.avl (lmul * U.elems) havl (Nat.mul_pos h1 U.elems_pos)
  obtain ⟨l₁, hfirst, hvl₁, hlmul₁, ⟨hc₁, havl₁, hrow₁⟩, hsum₁⟩ := does_columns (U := U) (m := m)
    (R := R) (M := M) (n := N - shift) (l := { l with hart := vmvVi U (vsetvli U l.hart lmul l.avl) 4 })
    rfl rfl h4 (U.vsetvl_le_max _ _)
    (fun k hk j hj => by
      have hj : j < U.vsetvl l.avl (lmul * U.elems) := hj
      have hcell : l.aP + k * M + j = a + (shift + k) * M + (l.rowOff + j) := by
        rw [haP, Nat.add_mul]
        omega
      show l.aP + k * M + j ∈ R
      rw [hcell]
      exact hreadA _ (by omega) _ (by omega))
    (fun k hk => by
      show l.bP + k ∈ R
      rw [hbP, Nat.add_assoc]
      exact hreadB _ (by omega))
  have hrow₁ : l₁.rowOff = l.rowOff := hrow₁
  obtain ⟨l₂, hsecond, hvl₂, -, ⟨hc₂, havl₂, hrow₂⟩, hsum₂⟩ := does_columns (U := U) (m := m)
    (R := R) (M := M) (n := shift) (l := { l₁ with aP := a + l₁.rowOff, bP := b })
    hvl₁ hlmul₁ h4 (U.vsetvl_le_max _ _)
    (fun k hk j hj => by
      have hj : j < U.vsetvl l.avl (lmul * U.elems) := hj
      have hcell : a + l₁.rowOff + k * M + j = a + k * M + (l.rowOff + j) := by
        rw [hrow₁]
        omega
      show a + l₁.rowOff + k * M + j ∈ R
      rw [hcell]
      exact hreadA _ (by omega) _ (by omega))
    (fun k hk => hreadB k (by omega))
  have hvl₂' : l₂.hart.vl = U.vsetvl l.avl (lmul * U.elems) := hvl₂
  have hrow₂' : l₂.rowOff = l.rowOff := hrow₂.trans hrow₁
  have havl₂' : l₂.avl = l.avl := havl₂.trans havl₁
  have hcP₂ : l₂.cP = l.cP := hc₂.trans hc₁
  refine ⟨_, l₂.hart, ⟨hpos, hle⟩, (hfirst.bind_empty (hsecond.bind_empty
    ((does_vse32 l₂.hart 4 l₂.cP).bind (?_ : Does m R _ ∅ _)))).congr ?_⟩
  · rw [hrow₂', havl₂', hvl₂']
    exact .ret _
  · rw [Set.union_empty]
    ext e
    rw [hvl₂', hcP₂]
    refine exists_congr fun j => and_congr_right fun hj => ?_
    have hzero : elem U (vmvVi U (vsetvli U l.hart lmul l.avl) 4) 4 j = U.zero := elem_put_self hj
    have hsum := hsum₂ j hj
    have hsame : elem U ({ l₁ with aP := a + l₁.rowOff, bP := b } : Locals F).hart 4 j =
        elem U l₁.hart 4 j := rfl
    rw [hsame, hsum₁ j hj, hzero] at hsum
    rw [hsum, rowSum, columnsFrom_eq hN, List.foldl_append, List.foldl_map]
    have hcell₁ : ∀ k, l.aP + k * M + j = a + (shift + k) * M + (l.rowOff + j) := fun k => by
      rw [haP, Nat.add_mul]
      omega
    have hcell₂ : ∀ k, a + l₁.rowOff + k * M + j = a + k * M + (l.rowOff + j) := fun k => by
      rw [hrow₁]
      show a + l.rowOff + k * M + j = _
      omega
    simp only [hcell₁, hcell₂, hbP, Nat.add_assoc b]

/-- **A kernel** writes its rows. -/
theorem does_gemv (s : Hart F) (hN : shift ≤ N) (h1 : 0 < lmul) (h4 : lmul ≤ 4)
    (hreadA : ∀ k < N, ∀ r < mCore, a + k * M + r ∈ R) (hreadB : ∀ k < N, b + k ∈ R) {fuel : Nat}
    (hfuel : mCore < fuel) (c : Nat) :
    ∃ l, Does m R (gemv U lmul a b c (a + shift * M) (b + shift) M (N - shift) mCore shift fuel s)
      {e | ∃ r < mCore, e = (c + r, rowSum U m a b M (columnsFrom N shift) r)} l := by
  obtain ⟨W, l, hdoes, hW⟩ := Does.whileDo (m := m) (R := R) (n := fuel) (W := ∅)
    (s := (⟨s, a + shift * M, b + shift, c, mCore, 0⟩ : Locals F)) (c := fun l => decide (l.avl > 0))
    (b := strip U lmul a b c (a + shift * M) (b + shift) M (N - shift) shift) (f := fun l => l.avl)
    (I := fun l W => l.rowOff + l.avl = mCore ∧ l.aP = a + shift * M + l.rowOff ∧ l.bP = b + shift ∧
      l.cP = c + l.rowOff ∧ W = {e | ∃ r < l.rowOff, e = (c + r, rowSum U m a b M (columnsFrom N shift) r)})
    (Q := fun _ W => W = {e | ∃ r < mCore, e = (c + r, rowSum U m a b M (columnsFrom N shift) r)})
    (by
      rintro l _ ⟨hrows, -, -, -, rfl⟩ hexit
      have havl : ¬ l.avl > 0 := by simpa using hexit
      rw [show l.rowOff = mCore by omega])
    (by
      rintro l _ ⟨hrows, haP, hbP, hcP, rfl⟩ hmore
      have havl : l.avl > 0 := by simpa using hmore
      obtain ⟨vl, s', ⟨hpos, hle⟩, hstrip⟩ := does_strip (U := U) (m := m) (R := R) (c := c) hN h1 h4
        havl haP hbP (fun k hk r hr => hreadA k hk r (by omega)) hreadB
      refine ⟨_, _, hstrip, ⟨by show l.rowOff + vl + (l.avl - vl) = mCore; omega, rfl, rfl, rfl, ?_⟩,
        by show l.avl - vl < l.avl; omega⟩
      ext e
      constructor
      · rintro (⟨r, hr, he⟩ | ⟨j, hj, he⟩)
        · exact ⟨r, Nat.lt_add_right vl hr, he⟩
        · exact ⟨l.rowOff + j, Nat.add_lt_add_left hj _, by rw [he, hcP, Nat.add_assoc]⟩
      · rintro ⟨r, hr, he⟩
        by_cases hlt : r < l.rowOff
        · exact Or.inl ⟨r, hlt, he⟩
        · obtain ⟨j, rfl⟩ := Nat.exists_eq_add_of_le (Nat.le_of_not_lt hlt)
          exact Or.inr ⟨j, Nat.lt_of_add_lt_add_left hr, by rw [he, hcP, Nat.add_assoc]⟩)
    (by simp only; omega) ⟨Nat.zero_add mCore, rfl, rfl, rfl, by simp⟩
  exact ⟨l, hdoes.congr (by rw [← hW, Set.empty_union])⟩

/-! ## All cores -/

theorem lmulOf_eq_none_iff : lmulOf mCore = none ↔ mCore < 16 := by
  unfold lmulOf
  simp only
  split
  · simp; omega
  · split
    · simp; omega
    · split
      · simp; omega
      · simp; omega

/-- `main` comes to a kernel with 16 rows for each core that are a block of the memory together. -/
theorem kernelLmul_eq_none_iff {M N numCores : Nat} :
    kernelLmul M N numCores = none ↔ M / numCores < 16 ∨ M / numCores * N < 256 := by
  unfold kernelLmul
  rcases hlmul : lmulOf (M / numCores) with _ | lmul
  · exact iff_of_true rfl (Or.inl (lmulOf_eq_none_iff.mp hlmul))
  · have hrows : ¬ M / numCores < 16 := fun h => by
      rw [lmulOf_eq_none_iff.mpr h] at hlmul
      cases hlmul
    rw [or_iff_right hrows, Option.bind_some, ite_eq_left_iff, imp_iff_not (by simp), not_not]
    rfl

theorem call_eq (U : VectorUnit F) {M N numCores lmul : Nat} (h : kernelLmul M N numCores = some lmul) :
    call U lmul = gemv U lmul ∧ 0 < lmul ∧ lmul ≤ 4 := by
  obtain ⟨lmul', hrows, hblock⟩ := Option.bind_eq_some_iff.mp h
  have hsame : lmul' = lmul := by
    simp only at hblock
    split at hblock
    · cases hblock
    · exact Option.some.inj hblock
  subst hsame
  unfold lmulOf at hrows
  simp only at hrows
  split at hrows
  · cases hrows; exact ⟨rfl, by decide, by decide⟩
  · split at hrows
    · cases hrows; exact ⟨rfl, by decide, by decide⟩
    · split at hrows
      · cases hrows; exact ⟨rfl, by decide, by decide⟩
      · cases hrows

/-- The matrix from row `k` on. -/
theorem rowSum_shift (U : VectorUnit F) (m : Nat → F) (a b M : Nat) (cols : List Nat) (k r : Nat) :
    rowSum U m (a + k) b M cols r = rowSum U m a b M cols (k + r) := by
  have hcell : ∀ n, a + k + n * M + r = a + n * M + (k + r) := fun n => by omega
  simp only [rowSum, hcell]

/-- **The product is exact**, if every core has rows for the kernels, they are no less than a block of the
memory, and the result is apart from the factors.  However the accesses of the cores interleave, once every
core has had its accesses each of the rows that are shared out is the sum of all its products, every column
once, in order from the column that its core begins with; and nothing else has changed. -/
theorem gemv_exact (U : VectorUnit F) (m : Nat → F) {M N a b c numCores fuel : Nat}
    (s : Fin numCores → Hart F) (hrows : 16 ≤ M / numCores) (hblock : 256 ≤ M / numCores * N)
    (hapart : ∀ x, c ≤ x → x < c + M → ¬ (a ≤ x ∧ x < a + N * M) ∧ ¬ (b ≤ x ∧ x < b + N)) (hfuel : M < fuel) :
    ∃ steps : Fin numCores → Nat, ∀ xs : List (Fin numCores), (∀ cid, steps cid ≤ xs.count cid) →
      (∀ cid, ∃ l, ((pool m (core U a b c M N fuel s)).run xs).code cid = .ret (some l)) ∧
      (∀ (cid : Fin numCores) (r : Nat), r < M / numCores →
        ((pool m (core U a b c M N fuel s)).run xs).mem (c + (M / numCores * cid + r)) =
          rowSum U m a b M (columnsFrom N (colShift M N cid)) (M / numCores * cid + r)) ∧
      ∀ x, (∀ r < M / numCores * numCores, x ≠ c + r) →
        ((pool m (core U a b c M N fuel s)).run xs).mem x = m x := by
  let R : Set Nat := {x | (a ≤ x ∧ x < a + N * M) ∨ (b ≤ x ∧ x < b + N)}
  let W : Fin numCores → Set (Nat × F) := fun cid =>
    {e | ∃ r < M / numCores, e = (c + (M / numCores * cid + r),
      rowSum U m a b M (columnsFrom N (colShift M N cid)) (M / numCores * cid + r))}
  have hshare : M / numCores * numCores ≤ M := Nat.div_mul_le_self M numCores
  have hrow : ∀ (cid : Fin numCores) (r : Nat), r < M / numCores →
      M / numCores * cid + r < M / numCores * numCores := fun cid r hr => by
    have hmul := Nat.mul_le_mul_left (M / numCores) (Nat.succ_le_of_lt cid.2)
    rw [Nat.mul_succ] at hmul
    omega
  have hN : 0 < N := Nat.pos_of_ne_zero (by rintro rfl; omega)
  obtain ⟨lmul, hlmul⟩ := Option.ne_none_iff_exists'.mp (show kernelLmul M N numCores ≠ none by
    rw [Ne, kernelLmul_eq_none_iff]
    omega)
  obtain ⟨hcall, h1, h4⟩ := call_eq U hlmul
  have hdoes : ∀ cid, ∃ l, Does m R (core U a b c M N fuel s cid) (W cid) (some l) := by
    intro cid
    have hshift : colShift M N cid ≤ N := Nat.le_of_lt (Nat.mod_lt _ hN)
    have hcell : ∀ k < N, ∀ r < M / numCores, a + M / numCores * cid + k * M + r ∈ R := by
      intro k hk r hr
      have hin := hrow cid r hr
      have hmul := Nat.mul_le_mul_right M (Nat.succ_le_of_lt hk)
      rw [Nat.succ_mul] at hmul
      exact Or.inl ⟨by omega, by omega⟩
    obtain ⟨l, h⟩ := does_gemv (U := U) (m := m) (R := R) (a := a + M / numCores * cid) (b := b)
      (M := M) (s cid) hshift h1 h4 hcell
      (fun k hk => Or.inr ⟨by omega, by omega⟩) (Nat.lt_of_le_of_lt (Nat.div_le_self M numCores) hfuel)
      (c + M / numCores * cid)
    refine ⟨l, ?_⟩
    unfold core
    rw [hlmul]
    simp only [hcall]
    exact (h.bind (.ret (some l))).congr (by simp only [W, rowSum_shift, Nat.add_assoc, Set.union_empty])
  choose l hl using hdoes
  have hread : ∀ cid x v, (x, v) ∈ W cid → x ∉ R := by
    rintro cid _ _ ⟨r, hr, heq⟩
    obtain ⟨rfl, rfl⟩ := Prod.mk.inj heq
    have hin := hrow cid r hr
    obtain ⟨ha, hb⟩ := hapart (c + (M / numCores * cid + r)) (by omega) (by omega)
    exact fun h => h.elim ha hb
  have hagree : ∀ i j x v v', (x, v) ∈ W i → (x, v') ∈ W j → v = v' := by
    rintro i j x v v' ⟨r, hr, heq⟩ ⟨r', hr', heq'⟩
    obtain ⟨rfl, rfl⟩ := Prod.mk.inj heq
    obtain ⟨hx, rfl⟩ := Prod.mk.inj heq'
    -- the address tells the core and the row
    have hsum : M / numCores * (i : Nat) + r = M / numCores * (j : Nat) + r' := by omega
    have hdiv := congrArg (· / (M / numCores)) hsum
    simp only [Nat.mul_add_div (Nat.zero_lt_of_lt hr), Nat.div_eq_of_lt, hr, hr', Nat.add_zero] at hdiv
    obtain rfl : i = j := Fin.ext hdiv
    rw [hsum]
  obtain ⟨-, steps, hend⟩ := threads_finish hl hread hagree
  refine ⟨steps, fun xs hxs => ?_⟩
  obtain ⟨hret, hwritten⟩ := hend xs hxs
  refine ⟨fun cid => ⟨_, hret cid⟩, fun cid r hr => hwritten.written cid _ _ ⟨r, hr, rfl⟩,
    fun x hx => hwritten.frame x ?_⟩
  rintro cid v ⟨r, hr, heq⟩
  exact hx _ (hrow cid r hr) (Prod.mk.inj heq).1

/-- Two cores multiply a matrix of 16 columns of 32 rows at 0 with a vector at 512, into 1024: a core's rows
are just a block of the memory, and the second core begins with column 8. -/
theorem gemv_exact_two :
    let s : Fin 2 → Hart Nat := fun _ => ⟨fun _ => 0, 0, 1⟩
    let sys := pool (fun x => x) (core smallUnit 0 512 1024 32 16 100 s)
    colShift 32 16 1 = 8 ∧
    ∃ steps : Fin 2 → Nat, ∀ xs : List (Fin 2), (∀ cid, steps cid ≤ xs.count cid) →
      (∀ cid, ∃ l, (sys.run xs).code cid = .ret (some l)) ∧
      (∀ (cid : Fin 2) (r : Nat), r < 32 / 2 → (sys.run xs).mem (1024 + (32 / 2 * cid + r)) =
        rowSum smallUnit (fun x => x) 0 512 32 (columnsFrom 16 (colShift 32 16 cid)) (32 / 2 * cid + r)) ∧
      ∀ x, (∀ r < 32 / 2 * 2, x ≠ 1024 + r) → (sys.run xs).mem x = x :=
  ⟨by decide, gemv_exact smallUnit (fun x => x) (fun _ => ⟨fun _ => 0, 0, 1⟩) (by decide) (by decide)
    (by omega) (by decide)⟩

end Gemv

end Linalg

end CachePool
