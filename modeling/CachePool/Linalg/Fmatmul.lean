import CachePool.Linalg.VectorUnit

/-!
# The matrix product of single-precision matrices (`kernel/fmatmul.c`, `main.c`)

A kernel computes a block of rows of the product, a strip of columns at a time.  The loop over the inner
dimension is unrolled twice and pipelined: the next row of `b` is loaded into the one group of registers, and
the next column of `a` into the scalars, while the row in the other group is accumulated.

* `matmul` — what the three kernels have in common; `matmul2xVL`, `matmul4xVL`, `matmul8xVL`.
* `dotProd` — an element of the product, with its first product rounded and each of the others fused.
* `does_block` — a block, by the state of the loop at each pass (`Pipe`); `does_matmul` — a kernel.
* `fmatmul_exact` — the cores, each with its share of the rows, in any order of their accesses.
-/

set_option autoImplicit false

namespace CachePool

namespace Linalg

namespace Fmatmul

open Threads

universe u

/-- What the kernels differ in: the rows of a block, `LMUL`, and the registers of the two rows of `b`.  The
rows of the block are accumulated in the groups below these. -/
structure Kernel where
  rows : Nat
  lmul : Nat
  bufA : Nat
  bufB : Nat
  fits : (0 < rows ∧ 0 < lmul) ∧ rows * lmul ≤ bufA ∧ bufA + lmul ≤ bufB

theorem Kernel.rows_pos (K : Kernel) : 0 < K.rows := K.fits.1.1

theorem Kernel.lmul_pos (K : Kernel) : 0 < K.lmul := K.fits.1.2

theorem Kernel.accs_le (K : Kernel) : K.rows * K.lmul ≤ K.bufA := K.fits.2.1

theorem Kernel.apart (K : Kernel) : K.bufA + K.lmul ≤ K.bufB := K.fits.2.2

/-- The registers of row `i` of a block. -/
def Kernel.acc (K : Kernel) (i : Nat) : Nat := i * K.lmul

/-- The variables of a block: the registers, `t0`, `t1`, …, `b__` and `n`. -/
structure Locals (F : Type u) where
  hart : Hart F
  t : Nat → F
  b : Nat
  n : Nat

variable {F : Type u} (U : VectorUnit F) (K : Kernel)

/-- `t0 = *a__; a__ += N; t1 = *a__; …` -/
def loadColumn (N a : Nat) (t : Nat → F) : Code Nat F (Nat → F) :=
  forUp K.rows (fun i t => .load (a + i * N) fun v => .ret (Function.update t i v)) t

/-- The instruction for one row: `vfmul.vf` for the first of the products, and `vfmacc.vf` for the others. -/
def vfmac (first : Bool) (s : Hart F) (rd : Nat) (t : F) (r : Nat) : Hart F :=
  if first then vfmulVf U s rd r t else vfmaccVf U s rd t r

/-- The row of `b` in `v`*r* is accumulated, and each scalar is replaced by that of the next column. -/
def accumulate (N : Nat) (first : Bool) (r a : Nat) (l : Locals F) : Code Nat F (Locals F) :=
  forUp K.rows (fun i l =>
    let hart := vfmac U first l.hart (K.acc i) (l.t i) r
    .load (a + i * N) fun v => .ret { l with hart := hart, t := Function.update l.t i v }) l

/-- Half of the loop over `n`, with `a` for `a_`: the next row of `b` is loaded into `v`*r'* while the one in
`v`*r* is accumulated. -/
def half (N P a : Nat) (first : Bool) (r' r : Nat) (l : Locals F) : Code Nat F (Locals F) :=
  let n := l.n + 1
  (vle32 U l.hart r' l.b).bind fun hart => accumulate U K N first r (a + n) ⟨hart, l.t, l.b + P, n⟩

/-- The body of the loop over `n`. -/
def pass (N P a : Nat) (l : Locals F) : Code Nat F (ForInStep (Locals F)) :=
  (half U K N P a (l.n + 1 == 1) K.bufB K.bufA l).bind fun l =>
    if l.n + 1 = N then .ret (.done { l with n := l.n + 1 })
    else (half U K N P a false K.bufA K.bufB l).bind fun l => .ret (.yield l)

/-- The rows of a block: `vfmacc.vf` and `vse32.v` of each. -/
def storeRows (P c : Nat) (l : Locals F) : Code Nat F (Hart F) :=
  forUp K.rows (fun i s =>
    vse32 U (vfmaccVf U s (K.acc i) (l.t i) K.bufB) (K.acc i) (c + i * P)) l.hart

/-- The body of the loop over `m`, with `a`, `b` and `c` for `a_`, `b_` and `c__`. -/
def block (N P a b c fuel : Nat) (s : Hart F) : Code Nat F (Hart F) :=
  (vle32 U s K.bufA b).bind fun s =>
    (loadColumn K N a fun _ => U.zero).bind fun t =>
      (whileDo (fun l => decide (l.n < N)) (pass U K N P a) fuel ⟨s, t, b + P, 0⟩).bind (storeRows U K P c)

/-- The loop over `m`, with `b` and `c` for `b_` and `c_`. -/
def strip (mStart mEnd N P a b c fuel : Nat) (s : Hart F) : Code Nat F (Hart F) :=
  (whileDo (fun x : Nat × Hart F => decide (x.1 < mEnd))
    (fun x => (block U K N P (a + x.1 * N) b (c + x.1 * P) fuel x.2).bind fun s =>
      .ret (.yield (x.1 + K.rows, s))) fuel (mStart, s)).bind fun x => .ret x.2

/-- A kernel; `fuel` is what each of its loops is given. -/
def matmul (c a b mStart mEnd N P pStart pEnd fuel : Nat) (s : Hart F) : Code Nat F (Hart F) :=
  (whileDo (fun x : Nat × Hart F => decide (x.1 < pEnd))
    (fun x =>
      let s := vsetvli U x.2 K.lmul (pEnd - x.1)
      let gvl := s.vl
      (strip U K mStart mEnd N P a (b + x.1) (c + x.1) fuel s).bind fun s =>
        .ret (.yield (x.1 + gvl, s))) fuel (pStart, s)).bind fun x => .ret x.2

/-- `matmul_2xVL`. -/
def matmul2xVL : Kernel := ⟨2, 8, 16, 24, by decide⟩

/-- `matmul_4xVL`; it loads from `b__` before it moves `a__`. -/
def matmul4xVL : Kernel := ⟨4, 4, 16, 20, by decide⟩

/-- `matmul_8xVL`. -/
def matmul8xVL : Kernel := ⟨8, 2, 18, 20, by decide⟩

/-- What core `cid` calls in `main`: its share of the rows, and all columns. -/
def core {numCores : Nat} (c a b M N P fuel : Nat) (s : Fin numCores → Hart F) (cid : Fin numCores) :
    Code Nat F (Hart F) :=
  matmul U K c a b (M / numCores * cid) (M / numCores * (cid + 1)) N P 0 P fuel (s cid)

/-! ## What they are to compute -/

/-- The products of `x` and `y` up to number `n`, summed up in order. -/
def dotProd (x y : Nat → F) : Nat → F
  | 0 => U.fmul (y 0) (x 0)
  | n + 1 => U.fmacc (x (n + 1)) (y (n + 1)) (dotProd x y n)

/-- Element `q` of row `r` of the product of the matrix at `a` and that at `b`, of inner dimension `N`. -/
def product (m : Nat → F) (a b N P r q : Nat) : F :=
  dotProd U (fun n => m (a + r * N + n)) (fun n => m (b + n * P + q)) (N - 1)

/-- Rows `r₀` to `r₁` and columns `q₀` to `q₁` of the product, in a matrix at `c`. -/
def tile (m : Nat → F) (a b c N P r₀ r₁ q₀ q₁ : Nat) : Set (Nat × F) :=
  {e | ∃ r q, (r₀ ≤ r ∧ r < r₁) ∧ (q₀ ≤ q ∧ q < q₁) ∧ e = (c + r * P + q, product U m a b N P r q)}

/-- The blocks that `for (m = mStart; m < mEnd; m += rows)` comes to. -/
def blocks (rows mStart mEnd : Nat) : Nat := (mEnd - mStart + rows - 1) / rows

/-! ## One column of `a` -/

variable {U K}

/-- The value of one row after one column. -/
def mac (U : VectorUnit F) (first : Bool) (t v d : F) : F := if first then U.fmul v t else U.fmacc t v d

theorem vfmac_eq (first : Bool) (s : Hart F) (rd : Nat) (t : F) (r : Nat) :
    vfmac U first s rd t r = put U s rd fun j => mac U first t (elem U s r j) (elem U s rd j) := by
  cases first <;> rfl

theorem Kernel.acc_add_le {i j : Nat} (h : i < j) : K.acc i + K.lmul ≤ K.acc j := by
  have hmul := Nat.mul_le_mul_right K.lmul (Nat.succ_le_of_lt h)
  rwa [Nat.succ_mul] at hmul

/-- The registers of a row lie below those of the rows of `b`. -/
theorem Kernel.acc_add_le_buf {i r : Nat} (hi : i < K.rows) (hr : K.rows * K.lmul ≤ r) :
    K.acc i + K.lmul ≤ r :=
  Nat.le_trans (K.acc_add_le hi) hr

variable {m : Nat → F} {R : Set Nat} {N P a b c : Nat}

/-- The state `l'` after `k` rows of `accumulate` from `l`. -/
structure Accumulated (U : VectorUnit F) (K : Kernel) (m : Nat → F) (N : Nat) (first : Bool) (r a : Nat)
    (l l' : Locals F) (k : Nat) : Prop where
  vl : l'.hart.vl = l.hart.vl
  lmul : l'.hart.lmul = l.hart.lmul
  b : l'.b = l.b
  n : l'.n = l.n
  t : ∀ i, l'.t i = if i < k then m (a + i * N) else l.t i
  acc : ∀ i < K.rows, ∀ j < l.hart.vl, elem U l'.hart (K.acc i) j =
    if i < k then mac U first (l.t i) (elem U l.hart r j) (elem U l.hart (K.acc i) j)
    else elem U l.hart (K.acc i) j
  buf : ∀ r', K.rows * K.lmul ≤ r' → ∀ j < l.hart.vl, elem U l'.hart r' j = elem U l.hart r' j

theorem Accumulated.row {first : Bool} {r a : Nat} {l l' : Locals F} {k : Nat}
    (h : Accumulated U K m N first r a l l' k) (hk : k < K.rows) (hr : K.rows * K.lmul ≤ r)
    (hlmul : l.hart.lmul = K.lmul) (hvl : l.hart.vl ≤ K.lmul * U.elems) :
    Accumulated U K m N first r a l
      { l' with hart := vfmac U first l'.hart (K.acc k) (l'.t k) r,
                t := Function.update l'.t k (m (a + k * N)) } (k + 1) := by
  have hfits : l'.hart.vl ≤ l'.hart.lmul * U.elems := by rwa [h.vl, h.lmul, hlmul]
  have hother : ∀ r' j, j < l.hart.vl → (r' + K.lmul ≤ K.acc k ∨ K.acc k + K.lmul ≤ r') →
      elem U (vfmac U first l'.hart (K.acc k) (l'.t k) r) r' j = elem U l'.hart r' j := by
    intro r' j hj hapart
    rw [vfmac_eq]
    exact elem_put_of_apart hfits (by rwa [h.vl]) (by rwa [h.lmul, hlmul])
  refine ⟨by rw [vfmac_eq]; exact h.vl, by rw [vfmac_eq]; exact h.lmul, h.b, h.n, fun i => ?_,
    fun i hi j hj => ?_, fun r' hr' j hj => ?_⟩
  · show Function.update l'.t k (m (a + k * N)) i = _
    by_cases hik : i = k
    · subst hik
      rw [Function.update_self, if_pos (Nat.lt_succ_self i)]
    · rw [Function.update_of_ne hik, h.t i]
      exact if_congr (by omega) rfl rfl
  · by_cases hik : i = k
    · subst hik
      have hself : elem U (vfmac U first l'.hart (K.acc i) (l'.t i) r) (K.acc i) j =
          mac U first (l'.t i) (elem U l'.hart r j) (elem U l'.hart (K.acc i) j) := by
        rw [vfmac_eq]
        exact elem_put_self (by rwa [h.vl])
      rw [hself, h.t i, h.buf r hr j hj, h.acc i hi j hj, if_neg (Nat.lt_irrefl i),
        if_neg (Nat.lt_irrefl i), if_pos (Nat.lt_succ_self i)]
    · have hapart : K.acc i + K.lmul ≤ K.acc k ∨ K.acc k + K.lmul ≤ K.acc i := by
        rcases Nat.lt_or_gt_of_ne hik with hlt | hgt
        · exact Or.inl (K.acc_add_le hlt)
        · exact Or.inr (K.acc_add_le hgt)
      rw [hother _ j hj hapart, h.acc i hi j hj]
      exact if_congr (by omega) rfl rfl
  · rw [hother r' j hj (Or.inr (K.acc_add_le_buf hk hr')), h.buf r' hr' j hj]

/-- **One column**: every row gets its product, and the scalars are those of the column at `a`. -/
theorem does_accumulate (first : Bool) {r a : Nat} {l : Locals F} (hr : K.rows * K.lmul ≤ r)
    (hlmul : l.hart.lmul = K.lmul) (hvl : l.hart.vl ≤ K.lmul * U.elems)
    (hread : ∀ i < K.rows, a + i * N ∈ R) :
    ∃ l', Does m R (accumulate U K N first r a l) ∅ l' ∧
      Accumulated U K m N first r a l l' K.rows := by
  obtain ⟨l', hdoes, hl'⟩ := Does.forUp (m := m) (R := R) (n := K.rows) (s := l)
    (I := fun k l' => Accumulated U K m N first r a l l' k) (W := fun _ => ∅)
    (b := fun i (l : Locals F) =>
      let hart := vfmac U first l.hart (K.acc i) (l.t i) r
      .load (a + i * N) fun v => .ret { l with hart := hart, t := Function.update l.t i v })
    ⟨rfl, rfl, rfl, rfl, fun _ => rfl, fun _ _ _ _ => rfl, fun _ _ _ _ => rfl⟩
    fun k l' hk h => ⟨_, .load (hread k hk) (.ret _), h.row hk hr hlmul hvl⟩
  exact ⟨l', hdoes.congr (by simp), hl'⟩

theorem does_loadColumn (hread : ∀ i < K.rows, a + i * N ∈ R) (t : Nat → F) :
    ∃ t', Does m R (loadColumn K N a t) ∅ t' ∧ ∀ i < K.rows, t' i = m (a + i * N) := by
  obtain ⟨t', hdoes, ht'⟩ := Does.forUp (m := m) (R := R) (n := K.rows) (s := t)
    (b := fun i (t : Nat → F) => .load (a + i * N) fun v => .ret (Function.update t i v))
    (I := fun k t => ∀ i < k, t i = m (a + i * N)) (W := fun _ => ∅)
    (fun i hi => absurd hi (Nat.not_lt_zero i)) (by
      intro k t hk ht
      refine ⟨_, .load (hread k hk) (.ret _), fun i hi => ?_⟩
      by_cases hik : i = k
      · subst hik
        rw [Function.update_self]
      · rw [Function.update_of_ne hik]
        exact ht i (by omega))
  exact ⟨t', hdoes.congr (by simp), ht'⟩

/-! ## A block -/

/-- **The pipeline** for vectors of `len` elements: the column `k` of `a` and, in `v`*r*, the row `k` of `b`
are loaded, and the products before are summed up. -/
structure Pipe (U : VectorUnit F) (K : Kernel) (m : Nat → F) (N P a b len k r : Nat) (l : Locals F) :
    Prop where
  vl : l.hart.vl = len
  lmul : l.hart.lmul = K.lmul
  n : l.n = k
  ptr : l.b = b + (k + 1) * P
  t : ∀ i < K.rows, l.t i = m (a + i * N + k)
  buf : ∀ j < len, elem U l.hart r j = m (b + k * P + j)
  acc : ∀ k', k = k' + 1 → ∀ i < K.rows, ∀ j < len, elem U l.hart (K.acc i) j =
    dotProd U (fun n => m (a + i * N + n)) (fun n => m (b + n * P + j)) k'

variable {len k r q : Nat}

theorem Kernel.accs_le_bufB (K : Kernel) : K.rows * K.lmul ≤ K.bufB :=
  Nat.le_trans K.accs_le (Nat.le_trans (Nat.le_add_right _ _) K.apart)

/-- The product that is added next. -/
theorem Pipe.mac_eq {l : Locals F} (h : Pipe U K m N P a b len k r l) {i j : Nat} (hi : i < K.rows)
    (hj : j < len) : mac U (k == 0) (l.t i) (elem U l.hart r j) (elem U l.hart (K.acc i) j) =
      dotProd U (fun n => m (a + i * N + n)) (fun n => m (b + n * P + j)) k := by
  rw [h.t i hi, h.buf j hj]
  cases k with
  | zero => rfl
  | succ k => rw [h.acc k rfl i hi j hj]; rfl

/-- **Half of a pass** moves the pipeline on by one, into the other group of registers. -/
theorem Pipe.half {l : Locals F} (h : Pipe U K m N P a b len k r l) (hk : k + 1 < N)
    (hlen : len ≤ K.lmul * U.elems) (hr : K.rows * K.lmul ≤ r) (hq : K.rows * K.lmul ≤ q)
    (hapart : r + K.lmul ≤ q ∨ q + K.lmul ≤ r)
    (hreadA : ∀ i < K.rows, ∀ n < N, a + i * N + n ∈ R) (hreadB : ∀ n < N, ∀ j < len, b + n * P + j ∈ R) :
    ∃ l', Does m R (half U K N P a (k == 0) q r l) ∅ l' ∧ Pipe U K m N P a b len (k + 1) q l' := by
  have hcolumn : ∀ i, a + (l.n + 1) + i * N = a + i * N + (k + 1) := fun i => by rw [h.n]; omega
  have hload := does_vle32 (U := U) (s := l.hart) (r := q) (p := l.b) (m := m) (R := R) (by
    intro j hj
    rw [h.ptr]
    exact hreadB _ hk j (by rwa [h.vl] at hj))
  have hfits : l.hart.vl ≤ l.hart.lmul * U.elems := by rwa [h.vl, h.lmul]
  have hkeep : ∀ x j, j < len → (x + K.lmul ≤ q ∨ q + K.lmul ≤ x) →
      elem U (put U l.hart q fun i => m (l.b + i)) x j = elem U l.hart x j := fun x j hj hx =>
    elem_put_of_apart hfits (by rwa [h.vl]) (by rwa [h.lmul])
  obtain ⟨l', hacc, h'⟩ := does_accumulate (U := U) (K := K) (m := m) (R := R) (N := N) (k == 0)
    (r := r) (a := a + (l.n + 1)) (l := ⟨put U l.hart q fun i => m (l.b + i), l.t, l.b + P, l.n + 1⟩)
    hr h.lmul (by rwa [put_vl, h.vl]) (fun i hi => by rw [hcolumn]; exact hreadA i hi _ hk)
  refine ⟨l', hload.bind_empty hacc, h'.vl.trans h.vl, h'.lmul.trans h.lmul, ?_, ?_, fun i hi => ?_,
    fun j hj => ?_, fun k' hk' i hi j hj => ?_⟩
  · rw [h'.n, h.n]
  · rw [h'.b, h.ptr, Nat.succ_mul (k + 1), Nat.add_assoc]
  · rw [h'.t i, if_pos hi, hcolumn]
  · rw [h'.buf q hq j (by rwa [put_vl, h.vl]), elem_put_self (by rwa [h.vl]), h.ptr]
  · obtain rfl : k = k' := by omega
    rw [h'.acc i hi j (by rwa [put_vl, h.vl]), if_pos hi, hkeep _ _ hj hapart,
      hkeep _ _ hj (Or.inl (K.acc_add_le_buf hi hq))]
    exact h.mac_eq hi hj

/-- **A pass** of the loop, which breaks with the last product still to be added. -/
theorem Pipe.pass {l : Locals F} (h : Pipe U K m N P a b len k K.bufA l) (hN : 2 ∣ N) (hk : 2 ∣ k)
    (hlt : k < N) (hlen : len ≤ K.lmul * U.elems) (hreadA : ∀ i < K.rows, ∀ n < N, a + i * N + n ∈ R)
    (hreadB : ∀ n < N, ∀ j < len, b + n * P + j ∈ R) :
    (k + 2 = N → ∃ l', Does m R (pass U K N P a l) ∅ (.done l') ∧
      Pipe U K m N P a b len (k + 1) K.bufB { l' with n := k + 1 }) ∧
    (k + 2 ≠ N → ∃ l', Does m R (pass U K N P a l) ∅ (.yield l') ∧
      Pipe U K m N P a b len (k + 2) K.bufA l') := by
  obtain ⟨l₁, hfirst, h₁⟩ := h.half (q := K.bufB) (by omega) hlen K.accs_le K.accs_le_bufB (Or.inl K.apart)
    hreadA hreadB
  have hzero : (l.n + 1 == 1) = (k == 0) := by rw [h.n, Bool.eq_iff_iff]; simp
  have hbreak : l₁.n + 1 = N ↔ k + 2 = N := by rw [h₁.n]
  unfold Fmatmul.pass
  rw [hzero]
  constructor
  · intro hlast
    refine ⟨{ l₁ with n := l₁.n + 1 }, hfirst.bind_empty ?_, { h₁ with n := rfl }⟩
    rw [if_pos (hbreak.mpr hlast)]
    exact .ret _
  · intro hmore
    obtain ⟨l₂, hsecond, h₂⟩ := h₁.half (q := K.bufA) (by omega) hlen K.accs_le_bufB K.accs_le
      (Or.inr K.apart) hreadA hreadB
    refine ⟨l₂, hfirst.bind_empty ?_, h₂⟩
    rw [if_neg (fun h => hmore (hbreak.mp h))]
    exact hsecond.bind_empty (.ret _)

/-- The loop leaves the last row of `b` in the second group, and the last column of `a` in the scalars. -/
theorem Pipe.loop {l : Locals F} (h : Pipe U K m N P a b len 0 K.bufA l) (hN : 2 ∣ N) (hpos : 0 < N)
    (hlen : len ≤ K.lmul * U.elems) (hreadA : ∀ i < K.rows, ∀ n < N, a + i * N + n ∈ R)
    (hreadB : ∀ n < N, ∀ j < len, b + n * P + j ∈ R) {fuel : Nat} (hfuel : N < fuel) :
    ∃ l', Does m R (whileDo (fun l => decide (l.n < N)) (Fmatmul.pass U K N P a) fuel l) ∅ l' ∧
      Pipe U K m N P a b len (N - 1) K.bufB { l' with n := N - 1 } := by
  refine Does.whileDo_reads (f := fun l => N - l.n)
    (I := fun l => 2 ∣ l.n ∧ l.n < N ∧ Pipe U K m N P a b len l.n K.bufA l)
    (fun l hl hc => absurd hl.2.1 (by simpa using hc)) ?_ (by omega)
    ⟨h.n ▸ Nat.dvd_zero 2, by rw [h.n]; exact hpos, by rw [h.n]; exact h⟩
  rintro l ⟨heven, hlt, hl⟩ -
  obtain ⟨hdone, hyield⟩ := hl.pass hN heven hlt hlen hreadA hreadB
  by_cases hlast : l.n + 2 = N
  · obtain ⟨l', hdoes, hl'⟩ := hdone hlast
    rw [show l.n + 1 = N - 1 by omega] at hl'
    exact ⟨.done l', hdoes, hl'⟩
  · obtain ⟨l', hdoes, hl'⟩ := hyield hlast
    have hn := hl'.n
    refine ⟨.yield l', hdoes, ⟨by omega, by omega, by rw [hn]; exact hl'⟩, ?_⟩
    show N - l'.n < N - l.n
    omega

/-- The rows of a block are stored with their last products. -/
theorem Pipe.storeRows {l : Locals F} {k : Nat} (h : Pipe U K m N P a b len (N - 1) K.bufB { l with n := k })
    (hN : 2 ≤ N) (hlen : len ≤ K.lmul * U.elems) (c : Nat) :
    ∃ s', Does m R (storeRows U K P c l) (tile U m a b c N P 0 K.rows 0 len) s' ∧
      s'.vl = len ∧ s'.lmul = K.lmul := by
  have hvl : l.hart.vl = len := h.vl
  have hlmul : l.hart.lmul = K.lmul := h.lmul
  obtain ⟨s', hdoes, hs'⟩ := Does.forUp (m := m) (R := R) (n := K.rows) (s := l.hart)
    (b := fun i s => vse32 U (vfmaccVf U s (K.acc i) (l.t i) K.bufB) (K.acc i) (c + i * P))
    (I := fun k s => s.vl = len ∧ s.lmul = K.lmul ∧
      (∀ i < K.rows, k ≤ i → ∀ j < len, elem U s (K.acc i) j = elem U l.hart (K.acc i) j) ∧
      ∀ j < len, elem U s K.bufB j = elem U l.hart K.bufB j)
    (W := fun i => {e | ∃ j < len, e = (c + i * P + j, product U m a b N P i j)})
    ⟨hvl, hlmul, fun _ _ _ _ _ => rfl, fun _ _ => rfl⟩ (by
      rintro i s hi ⟨hs, hm, hacc, hbuf⟩
      have hfits : s.vl ≤ s.lmul * U.elems := by rwa [hs, hm]
      have hkeep : ∀ r j, j < len → (r + K.lmul ≤ K.acc i ∨ K.acc i + K.lmul ≤ r) →
          elem U (vfmaccVf U s (K.acc i) (l.t i) K.bufB) r j = elem U s r j := fun r j hj hr =>
        elem_put_of_apart hfits (by rwa [hs]) (by rwa [hm])
      have hlast : ∀ j < len, elem U (vfmaccVf U s (K.acc i) (l.t i) K.bufB) (K.acc i) j =
          product U m a b N P i j := fun j hj => by
        have hmac := h.mac_eq hi hj
        rw [beq_false_of_ne (by omega)] at hmac
        unfold vfmaccVf
        rw [elem_put_self (by rwa [hs]), hbuf j hj, hacc i hi (Nat.le_refl i) j hj]
        exact hmac
      refine ⟨_, (does_vse32 _ _ _).congr ?_, hs, hm, fun i' hi' hlt j hj => ?_, fun j hj => ?_⟩
      · ext e
        have hvl' : (vfmaccVf U s (K.acc i) (l.t i) K.bufB).vl = len := hs
        rw [hvl']
        exact exists_congr fun j => and_congr_right fun hj => by rw [hlast j hj]
      · rw [hkeep _ _ hj (Or.inr (K.acc_add_le hlt))]
        exact hacc i' hi' (by omega) j hj
      · rw [hkeep _ _ hj (Or.inr (K.acc_add_le_buf hi K.accs_le_bufB))]
        exact hbuf j hj)
  refine ⟨s', hdoes.congr ?_, hs'.1, hs'.2.1⟩
  ext e
  constructor
  · rintro ⟨i, hi, j, hj, he⟩
    exact ⟨i, j, ⟨Nat.zero_le i, hi⟩, ⟨Nat.zero_le j, hj⟩, he⟩
  · rintro ⟨i, j, ⟨_, hi⟩, ⟨_, hj⟩, he⟩
    exact ⟨i, hi, j, hj, he⟩

/-- **A block** writes its rows of the product. -/
theorem does_block {s : Hart F} (hvl : s.vl = len) (hlmul : s.lmul = K.lmul) (hN : 2 ∣ N) (hpos : 0 < N)
    (hlen : len ≤ K.lmul * U.elems) (hreadA : ∀ i < K.rows, ∀ n < N, a + i * N + n ∈ R)
    (hreadB : ∀ n < N, ∀ j < len, b + n * P + j ∈ R) {fuel : Nat} (hfuel : N < fuel) (c : Nat) :
    ∃ s', Does m R (block U K N P a b c fuel s) (tile U m a b c N P 0 K.rows 0 len) s' ∧
      s'.vl = len ∧ s'.lmul = K.lmul := by
  have hload := does_vle32 (U := U) (s := s) (r := K.bufA) (p := b) (m := m) (R := R) (by
    intro j hj
    have hrow := hreadB 0 hpos j (by rwa [hvl] at hj)
    rwa [Nat.zero_mul, Nat.add_zero] at hrow)
  obtain ⟨t, hcolumn, ht⟩ := does_loadColumn (K := K) (m := m) (R := R) (N := N) (a := a)
    (fun i hi => by have hcell := hreadA i hi 0 hpos; rwa [Nat.add_zero] at hcell) fun _ => U.zero
  have hpipe : Pipe U K m N P a b len 0 K.bufA ⟨put U s K.bufA fun i => m (b + i), t, b + P, 0⟩ :=
    ⟨hvl, hlmul, rfl, by simp, ht, fun j hj => by rw [elem_put_self (by rwa [hvl])]; simp, by simp⟩
  obtain ⟨l, hloop, hl⟩ := hpipe.loop hN hpos hlen hreadA hreadB hfuel
  obtain ⟨s', hstore, hs'⟩ := hl.storeRows (R := R) (by omega) hlen c
  exact ⟨s', hload.bind_empty (hcolumn.bind_empty (hloop.bind_empty hstore)), hs'⟩

/-! ## Blocks of rows and strips of columns -/

variable {r₀ r₁ r₂ q₀ q₁ q₂ mStart mEnd pStart pEnd fuel : Nat}

theorem tile_rows (h₀ : r₀ ≤ r₁) (h₁ : r₁ ≤ r₂) :
    tile U m a b c N P r₀ r₁ q₀ q₁ ∪ tile U m a b c N P r₁ r₂ q₀ q₁ = tile U m a b c N P r₀ r₂ q₀ q₁ := by
  ext e
  constructor
  · rintro (⟨r, q, hr, hq, he⟩ | ⟨r, q, hr, hq, he⟩)
    · exact ⟨r, q, ⟨hr.1, by omega⟩, hq, he⟩
    · exact ⟨r, q, ⟨by omega, hr.2⟩, hq, he⟩
  · rintro ⟨r, q, hr, hq, he⟩
    by_cases hlt : r < r₁
    · exact Or.inl ⟨r, q, ⟨hr.1, hlt⟩, hq, he⟩
    · exact Or.inr ⟨r, q, ⟨by omega, hr.2⟩, hq, he⟩

theorem tile_columns (h₀ : q₀ ≤ q₁) (h₁ : q₁ ≤ q₂) :
    tile U m a b c N P r₀ r₁ q₀ q₁ ∪ tile U m a b c N P r₀ r₁ q₁ q₂ = tile U m a b c N P r₀ r₁ q₀ q₂ := by
  ext e
  constructor
  · rintro (⟨r, q, hr, hq, he⟩ | ⟨r, q, hr, hq, he⟩)
    · exact ⟨r, q, hr, ⟨hq.1, by omega⟩, he⟩
    · exact ⟨r, q, hr, ⟨by omega, hq.2⟩, he⟩
  · rintro ⟨r, q, hr, hq, he⟩
    by_cases hlt : q < q₁
    · exact Or.inl ⟨r, q, hr, ⟨hq.1, hlt⟩, he⟩
    · exact Or.inr ⟨r, q, hr, ⟨by omega, hq.2⟩, he⟩

theorem tile_empty (h : r₁ ≤ r₀ ∨ q₁ ≤ q₀) : tile U m a b c N P r₀ r₁ q₀ q₁ = ∅ := by
  ext e
  simp only [Set.mem_empty_iff_false, iff_false]
  rintro ⟨r, q, hr, hq, _⟩
  omega

/-- The matrices from row `k` on. -/
theorem tile_row_shift (k : Nat) : tile U m (a + k * N) b (c + k * P) N P 0 r₁ q₀ q₁ =
    tile U m a b c N P k (k + r₁) q₀ q₁ := by
  have hcell : ∀ r q, (c + k * P + r * P + q, product U m (a + k * N) b N P r q) =
      (c + (k + r) * P + q, product U m a b N P (k + r) q) := fun r q => by
    simp only [product, Nat.add_mul, Nat.add_assoc]
  ext e
  constructor
  · rintro ⟨r, q, hr, hq, he⟩
    exact ⟨k + r, q, ⟨by omega, by omega⟩, hq, by rw [← hcell, he]⟩
  · rintro ⟨r, q, hr, hq, he⟩
    obtain ⟨r', rfl⟩ := Nat.exists_eq_add_of_le hr.1
    exact ⟨r', q, ⟨Nat.zero_le r', by omega⟩, hq, by rw [hcell, he]⟩

/-- The matrices from column `k` on. -/
theorem tile_column_shift (k : Nat) : tile U m a (b + k) (c + k) N P r₀ r₁ 0 q₁ =
    tile U m a b c N P r₀ r₁ k (k + q₁) := by
  have hcell : ∀ r q, (c + k + r * P + q, product U m a (b + k) N P r q) =
      (c + r * P + (k + q), product U m a b N P r (k + q)) := fun r q => by
    have hcolumn : ∀ n, b + k + n * P + q = b + n * P + (k + q) := fun n => by omega
    simp only [product, hcolumn, show c + k + r * P + q = c + r * P + (k + q) by omega]
  ext e
  constructor
  · rintro ⟨r, q, hr, hq, he⟩
    exact ⟨r, k + q, hr, ⟨by omega, by omega⟩, by rw [← hcell, he]⟩
  · rintro ⟨r, q, hr, hq, he⟩
    obtain ⟨q', rfl⟩ := Nat.exists_eq_add_of_le hq.1
    exact ⟨r, q', hr, ⟨Nat.zero_le q', by omega⟩, by rw [hcell, he]⟩

theorem lt_blocks_iff {rows : Nat} (hrows : 0 < rows) (k : Nat) :
    k < blocks rows mStart mEnd ↔ mStart + k * rows < mEnd := by
  rw [blocks, ← Nat.succ_le_iff, Nat.le_div_iff_mul_le hrows, Nat.succ_mul]
  omega

/-- **A strip** writes the rows of its blocks. -/
theorem does_strip {s : Hart F} (hvl : s.vl = len) (hlmul : s.lmul = K.lmul) (hN : 2 ∣ N) (hpos : 0 < N)
    (hlen : len ≤ K.lmul * U.elems)
    (hreadA : ∀ r, r < mStart + blocks K.rows mStart mEnd * K.rows → ∀ n < N, a + r * N + n ∈ R)
    (hreadB : ∀ n < N, ∀ j < len, b + n * P + j ∈ R) (hfuel : N < fuel) (hfuel' : mEnd < fuel) (c : Nat) :
    ∃ s', Does m R (strip U K mStart mEnd N P a b c fuel s)
      (tile U m a b c N P mStart (mStart + blocks K.rows mStart mEnd * K.rows) 0 len) s' := by
  have hstep := K.rows_pos
  obtain ⟨W, x, hdoes, hx⟩ := Does.whileDo (m := m) (R := R) (n := fuel) (s := (mStart, s)) (W := ∅)
    (c := fun x : Nat × Hart F => decide (x.1 < mEnd)) (f := fun x => mEnd - x.1)
    (b := fun x => (block U K N P (a + x.1 * N) b (c + x.1 * P) fuel x.2).bind fun s =>
      .ret (.yield (x.1 + K.rows, s)))
    (I := fun x W => x.2.vl = len ∧ x.2.lmul = K.lmul ∧ ∃ k ≤ blocks K.rows mStart mEnd,
      x.1 = mStart + k * K.rows ∧ W = tile U m a b c N P mStart x.1 0 len)
    (Q := fun _ W => W = tile U m a b c N P mStart (mStart + blocks K.rows mStart mEnd * K.rows) 0 len)
    (by
      rintro ⟨_, s⟩ _ ⟨-, -, k, hk, rfl, rfl⟩ hexit
      have hge : ¬ k < blocks K.rows mStart mEnd := by
        rw [lt_blocks_iff hstep]
        simpa using hexit
      rw [show k = blocks K.rows mStart mEnd by omega])
    (by
      rintro ⟨_, s⟩ _ ⟨hs, hm, k, hk, rfl, rfl⟩ hmore
      have hmore : mStart + k * K.rows < mEnd := by simpa using hmore
      have hlt := (lt_blocks_iff hstep k).mpr hmore
      have hmul := Nat.mul_le_mul_right K.rows hlt
      rw [Nat.succ_mul] at hmul
      obtain ⟨s', hblock, hs', hm'⟩ := does_block (U := U) (K := K) (m := m) (R := R)
        (a := a + (mStart + k * K.rows) * N) (P := P) hs hm hN hpos hlen
        (fun i hi n hn => by
          have hcell := hreadA (mStart + k * K.rows + i) (by omega) n hn
          rwa [Nat.add_mul, ← Nat.add_assoc] at hcell) hreadB hfuel (c + (mStart + k * K.rows) * P)
      refine ⟨_, _, hblock.bind (.ret _), ⟨hs', hm', k + 1, hlt, by simp only [Nat.succ_mul]; omega, ?_⟩, ?_⟩
      · rw [Set.union_empty, tile_row_shift, tile_rows (by omega) (by omega)]
      · show mEnd - (mStart + k * K.rows + K.rows) < mEnd - (mStart + k * K.rows)
        omega)
    (by simp only; omega)
    ⟨hvl, hlmul, 0, Nat.zero_le _, by simp, (tile_empty (Or.inl (Nat.le_refl _))).symm⟩
  have hend : Does m R (strip U K mStart mEnd N P a b c fuel s) (W ∪ ∅) x.2 := hdoes.bind (.ret x.2)
  exact ⟨x.2, hend.congr (by rw [Set.union_empty, ← hx, Set.empty_union])⟩

/-- **A kernel** writes its rows and columns of the product, and the rows that fill up its last block. -/
theorem does_matmul (s : Hart F) (hN : 2 ∣ N) (hpos : 0 < N) (hp : pStart ≤ pEnd)
    (hreadA : ∀ r, r < mStart + blocks K.rows mStart mEnd * K.rows → ∀ n < N, a + r * N + n ∈ R)
    (hreadB : ∀ n < N, ∀ q < pEnd, b + n * P + q ∈ R) (hfuel : N < fuel) (hfuel' : mEnd < fuel)
    (hfuel'' : pEnd < fuel) (c : Nat) :
    ∃ s', Does m R (matmul U K c a b mStart mEnd N P pStart pEnd fuel s)
      (tile U m a b c N P mStart (mStart + blocks K.rows mStart mEnd * K.rows) pStart pEnd) s' := by
  obtain ⟨W, x, hdoes, hx⟩ := Does.whileDo (m := m) (R := R) (n := fuel) (s := (pStart, s)) (W := ∅)
    (c := fun x : Nat × Hart F => decide (x.1 < pEnd)) (f := fun x => pEnd - x.1)
    (b := fun x =>
      let s := vsetvli U x.2 K.lmul (pEnd - x.1)
      let gvl := s.vl
      (strip U K mStart mEnd N P a (b + x.1) (c + x.1) fuel s).bind fun s =>
        .ret (.yield (x.1 + gvl, s)))
    (I := fun x W => (pStart ≤ x.1 ∧ x.1 ≤ pEnd) ∧
      W = tile U m a b c N P mStart (mStart + blocks K.rows mStart mEnd * K.rows) pStart x.1)
    (Q := fun _ W => W = tile U m a b c N P mStart (mStart + blocks K.rows mStart mEnd * K.rows) pStart pEnd)
    (by
      rintro ⟨p, s⟩ _ ⟨⟨-, hle⟩, rfl⟩ hexit
      have hge : ¬ p < pEnd := by simpa using hexit
      rw [show p = pEnd by omega])
    (by
      rintro ⟨p, s⟩ _ ⟨⟨hge, hle⟩, rfl⟩ hmore
      have hmore : p < pEnd := by simpa using hmore
      have hgvl := U.vsetvl_le (pEnd - p) (K.lmul * U.elems)
      have hgvl' := U.vsetvl_pos (pEnd - p) (K.lmul * U.elems) (by omega)
        (Nat.mul_pos K.lmul_pos U.elems_pos)
      obtain ⟨s', hstrip⟩ := does_strip (U := U) (K := K) (m := m) (R := R) 
        (a := a) (b := b + p) (P := P)
        (s := vsetvli U s K.lmul (pEnd - p)) rfl rfl hN hpos (U.vsetvl_le_max _ _) hreadA
        (fun n hn j hj => by
          have hj : j < U.vsetvl (pEnd - p) (K.lmul * U.elems) := hj
          rw [show b + p + n * P + j = b + n * P + (p + j) by omega]
          exact hreadB n hn _ (by omega)) hfuel hfuel' (c + p)
      refine ⟨_, _, hstrip.bind (.ret _),
        ⟨⟨by simp only [vsetvli]; omega, by simp only [vsetvli]; omega⟩, ?_⟩, ?_⟩
      · rw [Set.union_empty, tile_column_shift, tile_columns hge (by omega)]
      · show pEnd - (p + U.vsetvl (pEnd - p) (K.lmul * U.elems)) < pEnd - p
        omega)
    (by simp only; omega) ⟨⟨Nat.le_refl _, hp⟩, (tile_empty (Or.inr (Nat.le_refl _))).symm⟩
  have hend : Does m R (matmul U K c a b mStart mEnd N P pStart pEnd fuel s) (W ∪ ∅) x.2 :=
    hdoes.bind (.ret x.2)
  exact ⟨x.2, hend.congr (by rw [Set.union_empty, ← hx, Set.empty_union])⟩

/-! ## All cores -/

/-- The first row behind the blocks of core `cid`. -/
def rowsDone (K : Kernel) (numCores M cid : Nat) : Nat :=
  M / numCores * cid + blocks K.rows 0 (M / numCores) * K.rows

theorem blocks_share (rows x k : Nat) : blocks rows (x * k) (x * (k + 1)) = blocks rows 0 x := by
  rw [blocks, blocks, Nat.mul_succ, Nat.add_sub_cancel_left, Nat.sub_zero]

theorem share_le_blocks (K : Kernel) (x : Nat) : x ≤ blocks K.rows 0 x * K.rows := by
  by_contra h
  have hlt : blocks K.rows 0 x < blocks K.rows 0 x := (lt_blocks_iff K.rows_pos _).mpr (by omega)
  exact Nat.lt_irrefl _ hlt

/-- An address belongs to one element. -/
theorem cell_inj {c P r q r' q' : Nat} (hq : q < P) (hq' : q' < P) (h : c + r * P + q = c + r' * P + q') :
    r = r' ∧ q = q' := by
  have hsum : r * P + q = r' * P + q' := by omega
  have hrow := congrArg (· / P) hsum
  have hcolumn := congrArg (· % P) hsum
  simp only [Nat.mul_comm _ P, Nat.mul_add_div (by omega : 0 < P), Nat.mul_add_mod, Nat.div_eq_of_lt,
    Nat.mod_eq_of_lt, hq, hq', Nat.add_zero] at hrow hcolumn
  exact ⟨hrow, hcolumn⟩

/-- Rows up to the last of the last core are rows of some core. -/
theorem exists_core {numCores M r : Nat} (hr : r < rowsDone K numCores M (numCores - 1)) :
    ∃ cid : Fin numCores, M / numCores * cid ≤ r ∧ r < rowsDone K numCores M cid := by
  rcases Nat.eq_zero_or_pos numCores with rfl | hcores
  · have hnone : rowsDone K 0 M (0 - 1) = 0 := by
      rw [rowsDone, blocks, Nat.div_zero, Nat.zero_mul, Nat.zero_sub, Nat.zero_add, Nat.zero_add,
        Nat.div_eq_of_lt (by have := K.rows_pos; omega), Nat.zero_mul]
    omega
  · by_cases hlast : M / numCores * (numCores - 1) ≤ r
    · exact ⟨⟨numCores - 1, by omega⟩, hlast, hr⟩
    · have hshare : 0 < M / numCores := by
        by_contra h
        rw [Nat.eq_zero_of_not_pos h, Nat.zero_mul] at hlast
        exact hlast (Nat.zero_le r)
      have hdiv := Nat.div_add_mod r (M / numCores)
      have hmod := Nat.mod_lt r hshare
      have hcid : r / (M / numCores) < numCores := by
        rw [Nat.div_lt_iff_lt_mul hshare, Nat.mul_comm]
        exact Nat.lt_of_lt_of_le (Nat.lt_of_not_le hlast) (Nat.mul_le_mul_left _ (Nat.sub_le _ _))
      refine ⟨⟨r / (M / numCores), hcid⟩, by show M / numCores * (r / (M / numCores)) ≤ r; omega, ?_⟩
      have hblock := share_le_blocks K (M / numCores)
      show r < M / numCores * (r / (M / numCores)) + _
      omega

/-- **The product is exact**, if the inner dimension is even, the last block stays within the matrix and the
result is apart from the factors.  However the accesses of the cores interleave, an element of the result is
on the way what it was or its sum of products, added up in order; and once every core has had its accesses,
all rows that the blocks of the cores come to are the product, and nothing else has changed. -/
theorem fmatmul_exact (U : VectorUnit F) (K : Kernel) (m : Nat → F) {M N P a b c numCores fuel : Nat}
    (s : Fin numCores → Hart F) (hN : 2 ∣ N) (hpos : 0 < N)
    (hrows : rowsDone K numCores M (numCores - 1) ≤ M)
    (hapart : ∀ x, c ≤ x → x < c + M * P →
      ¬ (a ≤ x ∧ x < a + M * N) ∧ ¬ (b ≤ x ∧ x < b + N * P))
    (hfuel : M < fuel ∧ N < fuel ∧ P < fuel) :
    (∀ xs x, ((pool m (core U K c a b M N P fuel s)).run xs).mem x = m x ∨
      ∃ r q, r < M ∧ q < P ∧ x = c + r * P + q ∧
        ((pool m (core U K c a b M N P fuel s)).run xs).mem x = product U m a b N P r q) ∧
    ∃ steps : Fin numCores → Nat, ∀ xs : List (Fin numCores), (∀ cid, steps cid ≤ xs.count cid) →
      (∀ cid, ∃ s', ((pool m (core U K c a b M N P fuel s)).run xs).code cid = .ret s') ∧
      (∀ r q, r < rowsDone K numCores M (numCores - 1) → q < P →
        ((pool m (core U K c a b M N P fuel s)).run xs).mem (c + r * P + q) = product U m a b N P r q) ∧
      ∀ x, (∀ r q, r < rowsDone K numCores M (numCores - 1) → q < P → x ≠ c + r * P + q) →
        ((pool m (core U K c a b M N P fuel s)).run xs).mem x = m x := by
  -- the cells of the two factors, and what each core writes
  let R : Set Nat := {x | (a ≤ x ∧ x < a + M * N) ∨ (b ≤ x ∧ x < b + N * P)}
  let W : Fin numCores → Set (Nat × F) := fun cid =>
    tile U m a b c N P (M / numCores * cid) (rowsDone K numCores M cid) 0 P
  have hle : ∀ cid : Fin numCores, rowsDone K numCores M cid ≤ M := fun cid =>
    Nat.le_trans (Nat.add_le_add_right (Nat.mul_le_mul_left _ (by have := cid.2; omega)) _) hrows
  have hcell : ∀ {r q k n : Nat}, r < k → q < n → r * n + q < k * n := fun {r q k n} hr hq => by
    have hmul := Nat.mul_le_mul_right n (Nat.succ_le_of_lt hr)
    rw [Nat.succ_mul] at hmul
    omega
  have hdoes : ∀ cid, ∃ s', Does m R (core U K c a b M N P fuel s cid) (W cid) s' := by
    intro cid
    have hend : M / numCores * (cid : Nat) + blocks K.rows (M / numCores * cid) (M / numCores * (cid + 1)) *
        K.rows = rowsDone K numCores M cid := by rw [blocks_share, rowsDone]
    have hshare : M / numCores * ((cid : Nat) + 1) ≤ rowsDone K numCores M cid := by
      rw [Nat.mul_succ]
      exact Nat.add_le_add_left (share_le_blocks K _) _
    obtain ⟨s', h⟩ := does_matmul (U := U) (K := K) (m := m) (R := R) (N := N) (P := P) (a := a) (b := b)
      (s cid) hN hpos (Nat.zero_le P)
      (fun r hr n hn => Or.inl ⟨by omega, by
        have hin := hcell (Nat.lt_of_lt_of_le (hend ▸ hr) (hle cid)) hn
        omega⟩)
      (fun n hn q hq => Or.inr ⟨by omega, by have hin := hcell hn hq; omega⟩) hfuel.2.1
      (Nat.lt_of_le_of_lt (Nat.le_trans hshare (hle cid)) hfuel.1) hfuel.2.2 c
    exact ⟨s', h.congr (by rw [hend])⟩
  choose r hr using hdoes
  have hread : ∀ cid x v, (x, v) ∈ W cid → x ∉ R := by
    rintro cid _ _ ⟨r, q, ⟨_, hr⟩, ⟨_, hq⟩, heq⟩
    obtain ⟨rfl, rfl⟩ := Prod.mk.inj heq
    have hin := hcell (Nat.lt_of_lt_of_le hr (hle cid)) hq
    obtain ⟨ha, hb⟩ := hapart (c + r * P + q) (by omega) (by omega)
    exact fun h => h.elim ha hb
  have hagree : ∀ i j x v v', (x, v) ∈ W i → (x, v') ∈ W j → v = v' := by
    rintro i j x v v' ⟨r, q, _, ⟨_, hq⟩, heq⟩ ⟨r', q', _, ⟨_, hq'⟩, heq'⟩
    obtain ⟨rfl, rfl⟩ := Prod.mk.inj heq
    obtain ⟨hx, rfl⟩ := Prod.mk.inj heq'
    obtain ⟨rfl, rfl⟩ := cell_inj hq hq' hx
    rfl
  obtain ⟨hway, steps, hend⟩ := threads_finish hr hread hagree
  refine ⟨fun xs x => (hway xs x).imp_right ?_, steps, fun xs hxs => ?_⟩
  · rintro ⟨cid, r, q, ⟨_, hr⟩, ⟨_, hq⟩, heq⟩
    obtain ⟨hx, hv⟩ := Prod.mk.inj heq
    exact ⟨r, q, Nat.lt_of_lt_of_le hr (hle cid), hq, hx, hv⟩
  · obtain ⟨hret, hwritten⟩ := hend xs hxs
    refine ⟨fun cid => ⟨_, hret cid⟩, fun r q hr hq => ?_, fun x hx => hwritten.frame x ?_⟩
    · obtain ⟨cid, hfrom, hto⟩ := exists_core hr
      exact hwritten.written cid _ _ ⟨r, q, ⟨hfrom, hto⟩, ⟨Nat.zero_le q, hq⟩, rfl⟩
    · rintro cid v ⟨r, q, ⟨_, hr⟩, ⟨_, hq⟩, heq⟩
      have hlast : rowsDone K numCores M cid ≤ rowsDone K numCores M (numCores - 1) :=
        Nat.add_le_add_right (Nat.mul_le_mul_left _ (by have := cid.2; omega)) _
      exact hx r q (Nat.lt_of_lt_of_le hr hlast) hq (Prod.mk.inj heq).1

/-- Two cores multiply a matrix of 8 rows at 0 with one of 4 rows at 32, into 64. -/
theorem fmatmul_exact_two :
    let s : Fin 2 → Hart Nat := fun _ => ⟨fun _ => 0, 0, 1⟩
    let sys := pool (fun x => x) (core smallUnit matmul4xVL 64 0 32 8 4 3 100 s)
    (∀ xs x, (sys.run xs).mem x = x ∨ ∃ r q, r < 8 ∧ q < 3 ∧ x = 64 + r * 3 + q ∧
      (sys.run xs).mem x = product smallUnit (fun x => x) 0 32 4 3 r q) ∧
    ∃ steps : Fin 2 → Nat, ∀ xs : List (Fin 2), (∀ cid, steps cid ≤ xs.count cid) →
      (∀ cid, ∃ s', (sys.run xs).code cid = .ret s') ∧
      (∀ r q, r < rowsDone matmul4xVL 2 8 (2 - 1) → q < 3 →
        (sys.run xs).mem (64 + r * 3 + q) = product smallUnit (fun x => x) 0 32 4 3 r q) ∧
      ∀ x, (∀ r q, r < rowsDone matmul4xVL 2 8 (2 - 1) → q < 3 → x ≠ 64 + r * 3 + q) →
        (sys.run xs).mem x = x :=
  fmatmul_exact smallUnit matmul4xVL (fun x => x) (fun _ => ⟨fun _ => 0, 0, 1⟩) (by decide) (by decide)
    (by decide) (by omega) (by decide)

end Fmatmul

end Linalg

end CachePool
