import CachePool.Lib.Blit

/-!
# The hart that the copy routines of `kernel/data_move_vec.c` run on

Memory is bytes by address, and so are the vector registers: `v`*r* begins at byte `64 * r`, as `VLEN` is 512.
A word is its four bytes, so nothing here depends on their order.  A scalar access at an address that its size
does not divide raises an exception, and the handler of the runtime does not return from it.

* `VectorUnit` — what `vsetvli` returns for a requested length, and what a load does to the tail of its
  registers.
* `vsetvli`, `vle32`, `vse32`, `vslideup1`, `vmvSX` — the vector instructions, for 32-bit elements.
* `lw`, `sw`, `lb`, `sb`, `assign` — the scalar ones, and an assignment `*d = *s` of the C code.
* `burst_mem` — loads of neighbouring stretches into registers, and then their stores, copy the whole.
-/

set_option autoImplicit false

namespace CachePool

namespace Rlc

namespace DataMove

open Blit

/-- `VLEN_BITS`. -/
def vlenBits : Nat := 512

/-- The elements of a group of `lmul` registers. -/
def vlmax (lmul : Nat) : Nat := vlenBits * lmul / (8 * 4)

/-- `vsetvl avl vlmax` is the vector length for `avl` requested elements.  Below twice the maximum an
implementation may split the elements as it likes.  `tail` is what a byte of the tail becomes: the policy is
agnostic. -/
structure VectorUnit where
  vsetvl : Nat → Nat → Nat
  tail : Nat → BitVec 8 → BitVec 8
  vsetvl_of_le : ∀ avl max, avl ≤ max → vsetvl avl max = avl
  vsetvl_of_ge : ∀ avl max, 2 * max ≤ avl → vsetvl avl max = max

/-- `mem`, `vreg` and `treg` (the temporaries `t0`, `t1`, …, four bytes each) are bytes.  `reads` and `writes`
are the stretches of memory that were touched, an address with a length.  The rest are variables of the
routines that a loop changes. -/
structure State where
  mem : Nat → BitVec 8
  vreg : Nat → BitVec 8
  treg : Nat → BitVec 8
  vl : Nat
  lmul : Nat
  reads : List (Nat × Nat)
  writes : List (Nat × Nat)
  copied : Nat
  blocks : Nat
  d32 : Nat
  s32 : Nat

/-- A unit that takes the largest length it can, and leaves the tail alone. -/
def spatz : VectorUnit where
  vsetvl := min
  tail _ b := b
  vsetvl_of_le _ _ h := Nat.min_eq_left h
  vsetvl_of_ge _ _ h := Nat.min_eq_right (by omega)

/-- A hart with every byte of memory its address, and registers that hold nothing yet. -/
def fresh : State := ⟨BitVec.ofNat 8, fun _ => 0, fun _ => 0, 0, 1, [], [], 0, 0, 0, 0⟩

variable (U : VectorUnit) (s : State)

/-- `vsetvli vl, avl, e32, m`*lmul*`, ta, ma`. -/
def vsetvli (lmul avl : Nat) : State := { s with vl := U.vsetvl avl (vlmax lmul), lmul := lmul }

/-- The register file after a write of `vl` elements to `v`*r* that may disturb the tail. -/
def tails (r : Nat) : Nat → BitVec 8 := fun y =>
  if 64 * r + 4 * s.vl ≤ y ∧ y < 64 * r + 64 * s.lmul then U.tail y (s.vreg y) else s.vreg y

/-- `vle32.v v`*r*`, (addr)`. -/
def vle32 (r addr : Nat) : State :=
  { s with
    vreg := blit (64 * r) addr (4 * s.vl) s.mem (tails U s r)
    reads := s.reads ++ [(addr, 4 * s.vl)] }

/-- `vse32.v v`*r*`, (addr)`. -/
def vse32 (r addr : Nat) : State :=
  { s with
    mem := blit addr (64 * r) (4 * s.vl) s.vreg s.mem
    writes := s.writes ++ [(addr, 4 * s.vl)] }

/-- `vslideup.vi v`*rd*`, v`*rs*`, 1`: element 0 stays. -/
def vslideup1 (rd rs : Nat) : State :=
  { s with vreg := blit (64 * rd + 4) (64 * rs) (4 * (s.vl - 1)) s.vreg (tails U s rd) }

/-- Byte `i` of a word in memory. -/
def byteOf (w : BitVec 32) (i : Nat) : BitVec 8 := w.extractLsb' (8 * i) 8

/-- `vmv.s.x v`*rd*`, w`: element 0, the others being tail. -/
def vmvSX (rd : Nat) (w : BitVec 32) : State :=
  { s with
    vreg := blit (64 * rd) 0 4 (byteOf w)
      fun y => if 64 * rd + 4 ≤ y ∧ y < 64 * rd + 64 then U.tail y (s.vreg y) else s.vreg y }

/-- `lw t`*r*`, (addr)`; at a misaligned address the hart does not come back from the exception. -/
def lw (r addr : Nat) : Option State :=
  if addr % 4 = 0 then
    some { s with treg := blit (4 * r) addr 4 s.mem s.treg, reads := s.reads ++ [(addr, 4)] }
  else none

/-- `sw t`*r*`, (addr)`. -/
def sw (r addr : Nat) : Option State :=
  if addr % 4 = 0 then
    some { s with mem := blit addr (4 * r) 4 s.treg s.mem, writes := s.writes ++ [(addr, 4)] }
  else none

/-- `lb t`*r*`, (addr)`: the upper three bytes are the sign. -/
def lb (r addr : Nat) : State :=
  { s with
    treg := fun y =>
      if y = 4 * r then s.mem addr
      else if 4 * r < y ∧ y < 4 * r + 4 then (if (s.mem addr).msb then 255 else 0)
      else s.treg y
    reads := s.reads ++ [(addr, 1)] }

/-- `sb t`*r*`, (addr)`. -/
def sb (r addr : Nat) : State :=
  { s with mem := blit addr (4 * r) 1 s.treg s.mem, writes := s.writes ++ [(addr, 1)] }

/-- `*d = *s` for a type of `n` bytes. -/
def assign (n d src : Nat) : Option State :=
  if src % n = 0 ∧ d % n = 0 then
    some { s with mem := copy d src n s.mem, reads := s.reads ++ [(src, n)], writes := s.writes ++ [(d, n)] }
  else none

/-- `vle32` into the groups `js` of `M` registers each, group `j` from its place behind `src` on. -/
def vle32s (M src : Nat) (js : List Nat) : State :=
  js.foldl (fun s j => vle32 U s (M * j) (src + 4 * (j * vlmax M))) s

/-- `vse32` of the groups `js`. -/
def vse32s (M d : Nat) (js : List Nat) : State :=
  js.foldl (fun s j => vse32 s (M * j) (d + 4 * (j * vlmax M))) s

/-- `lw` of words `0`, …, `n - 1` into `t0`, `t1`, …, and their `sw`. -/
def lws (n src : Nat) : Option State := (List.range' 0 n).foldlM (fun s j => lw s j (src + 4 * j)) s

def sws (n d : Nat) : Option State := (List.range' 0 n).foldlM (fun s j => sw s j (d + 4 * j)) s

/-- `lb` of bytes `0`, …, `n - 1` into `t0`, `t1`, …, and their `sb`. -/
def lbs (n src : Nat) : State := (List.range' 0 n).foldl (fun s j => lb s j (src + j)) s

def sbs (n d : Nat) : State := (List.range' 0 n).foldl (fun s j => sb s j (d + j)) s

/-! ## What they leave in memory -/

variable {U s} {M d src n a k : Nat} {js : List Nat}

theorem vlmax_bytes (M : Nat) : 4 * vlmax M = 64 * M := by
  unfold vlmax vlenBits
  omega

theorem place_eq (M j : Nat) : 4 * (j * vlmax M) = 64 * M * j := by
  rw [Nat.mul_comm j, ← Nat.mul_assoc, vlmax_bytes]

theorem tails_full (h : s.vl = vlmax s.lmul) (r : Nat) : tails U s r = s.vreg := by
  have hbytes := vlmax_bytes s.lmul
  funext y
  apply if_neg
  omega

/-- Loads only change registers. -/
def Loaded (s t : State) : Prop := ∃ v x l, t = { s with vreg := v, treg := x, reads := l }

/-- Stores only change memory. -/
def Stored (s t : State) : Prop := ∃ m l, t = { s with mem := m, writes := l }

theorem Loaded.refl (s : State) : Loaded s s := ⟨s.vreg, s.treg, s.reads, rfl⟩

theorem Stored.refl (s : State) : Stored s s := ⟨s.mem, s.writes, rfl⟩

theorem vle32s_loaded (U : VectorUnit) (src : Nat) (js : List Nat) (hl : s.lmul = M) (hv : s.vl = vlmax M) :
    Loaded s (vle32s U s M src js) ∧ (vle32s U s M src js).vreg =
      js.foldl (fun g j => blit (64 * M * j) (src + 64 * M * j) (64 * M) s.mem g) s.vreg := by
  apply foldl_observe (Loaded s) _ js s (Loaded.refl s)
  rintro t j ⟨v, x, l, rfl⟩
  refine ⟨⟨_, _, _, rfl⟩, ?_⟩
  have hfull : s.vl = vlmax s.lmul := hl ▸ hv
  unfold vle32
  rw [tails_full (s := { s with vreg := v, treg := x, reads := l }) hfull]
  simp only [hv, vlmax_bytes, place_eq, Nat.mul_assoc]

theorem vse32s_stored (s : State) (d : Nat) (js : List Nat) (hv : s.vl = vlmax M) :
    Stored s (vse32s s M d js) ∧ (vse32s s M d js).mem =
      js.foldl (fun g j => blit (d + 64 * M * j) (64 * M * j) (64 * M) s.vreg g) s.mem := by
  apply foldl_observe (Stored s) _ js s (Stored.refl s)
  rintro t j ⟨m, l, rfl⟩
  refine ⟨⟨_, _, rfl⟩, ?_⟩
  unfold vse32
  simp only [hv, vlmax_bytes, place_eq, Nat.mul_assoc]

/-- The loads of `k` neighbouring groups, then their stores. -/
theorem burst_mem (U : VectorUnit) (src d a k : Nat) (hl : s.lmul = M) (hv : s.vl = vlmax M) :
    (vse32s (vle32s U s M src (List.range' a k)) M d (List.range' a k)).mem =
      copy (d + 64 * M * a) (src + 64 * M * a) (64 * M * k) s.mem := by
  obtain ⟨⟨v, x, l, hframe⟩, hreg⟩ := vle32s_loaded U src (List.range' a k) hl hv
  have hload := foldl_blit 0 src a (64 * M) k s.mem s.vreg
  simp only [Nat.zero_add] at hload
  rw [hload, hframe] at hreg
  dsimp only at hreg
  have hstore := foldl_blit d 0 a (64 * M) k v s.mem
  simp only [Nat.zero_add] at hstore
  rw [hframe, (vse32s_stored { s with vreg := v, treg := x, reads := l } d _ hv).2, hstore, hreg]
  exact blit_through

theorem assign_of_aligned (hs : src % n = 0) (hd : d % n = 0) :
    assign s n d src =
      some { s with
        mem := copy d src n s.mem, reads := s.reads ++ [(src, n)], writes := s.writes ++ [(d, n)] } :=
  if_pos ⟨hs, hd⟩

theorem lws_loaded (s : State) (n : Nat) (hs : src % 4 = 0) :
    ∃ t, lws s n src = some t ∧ Loaded s t ∧ t.treg = blit 0 src (4 * n) s.mem s.treg := by
  have hstep : (fun (t : State) (j : Nat) => lw t j (src + 4 * j)) = fun t j =>
      pure { t with
        treg := blit (4 * j) (src + 4 * j) 4 t.mem t.treg, reads := t.reads ++ [(src + 4 * j, 4)] } := by
    funext t j
    exact if_pos (by omega)
  have hload := foldl_blit 0 src 0 4 n s.mem s.treg
  simp only [Nat.zero_add, Nat.mul_zero, Nat.add_zero] at hload
  unfold lws
  rw [hstep, List.foldlM_pure, ← hload]
  refine ⟨_, rfl, ?_⟩
  apply foldl_observe (Loaded s) _ _ s (Loaded.refl s)
  rintro t j ⟨v, x, l, rfl⟩
  exact ⟨⟨_, _, _, rfl⟩, rfl⟩

theorem sws_stored (s : State) (n : Nat) (hd : d % 4 = 0) :
    ∃ t, sws s n d = some t ∧ Stored s t ∧ t.mem = blit d 0 (4 * n) s.treg s.mem := by
  have hstep : (fun (t : State) (j : Nat) => sw t j (d + 4 * j)) = fun t j =>
      pure { t with
        mem := blit (d + 4 * j) (4 * j) 4 t.treg t.mem, writes := t.writes ++ [(d + 4 * j, 4)] } := by
    funext t j
    exact if_pos (by omega)
  have hstore := foldl_blit d 0 0 4 n s.treg s.mem
  simp only [Nat.zero_add, Nat.mul_zero, Nat.add_zero] at hstore
  unfold sws
  rw [hstep, List.foldlM_pure, ← hstore]
  refine ⟨_, rfl, ?_⟩
  apply foldl_observe (Stored s) _ _ s (Stored.refl s)
  rintro t j ⟨m, l, rfl⟩
  exact ⟨⟨_, _, rfl⟩, rfl⟩

theorem words_mem (s : State) (n : Nat) (hs : src % 4 = 0) (hd : d % 4 = 0) :
    ∃ t u, lws s n src = some t ∧ sws t n d = some u ∧ u.mem = copy d src (4 * n) s.mem := by
  obtain ⟨_, hload, ⟨v, x, l, rfl⟩, hreg⟩ := lws_loaded s n hs
  obtain ⟨u, hstore, -, hmem⟩ := sws_stored { s with vreg := v, treg := x, reads := l } n hd
  dsimp only at hreg hmem
  refine ⟨_, u, hload, hstore, ?_⟩
  rw [hmem, hreg]
  exact blit_through

theorem lbs_loaded (n src : Nat) :
    Loaded s (lbs s n src) ∧ ∀ j, j < n → (lbs s n src).treg (4 * j) = s.mem (src + j) := by
  induction n with
  | zero => exact ⟨Loaded.refl s, fun j hj => absurd hj (Nat.not_lt_zero j)⟩
  | succ n ih =>
    obtain ⟨⟨v, x, l, hframe⟩, hreg⟩ := ih
    have hlast : lbs s (n + 1) src = lb (lbs s n src) n (src + n) := by
      simp [lbs, List.range'_concat]
    rw [hframe] at hlast hreg
    rw [hlast]
    refine ⟨⟨_, _, _, rfl⟩, fun j hj => ?_⟩
    by_cases hjn : j = n
    · rw [hjn]
      exact if_pos rfl
    · have hne : 4 * j ≠ 4 * n := by omega
      have hout : ¬ (4 * n < 4 * j ∧ 4 * j < 4 * n + 4) := by omega
      unfold lb
      dsimp only
      rw [if_neg hne, if_neg hout]
      exact hreg j (by omega)

theorem sbs_stored (s : State) (n d : Nat) :
    Stored s (sbs s n d) ∧
      (sbs s n d).mem = (List.range' 0 n).foldl (fun g j => blit (d + j) (4 * j) 1 s.treg g) s.mem := by
  apply foldl_observe (Stored s) _ _ s (Stored.refl s)
  rintro t j ⟨m, l, rfl⟩
  exact ⟨⟨_, _, rfl⟩, rfl⟩

theorem bytes_mem (n : Nat) : (sbs (lbs s n src) n d).mem = copy d src n s.mem := by
  obtain ⟨⟨v, x, l, hframe⟩, hreg⟩ := lbs_loaded (s := s) n src
  have hbyte : ∀ g, ∀ j ∈ List.range' 0 n,
      blit (d + j) (4 * j) 1 x g = blit (d + 1 * j) (src + 1 * j) 1 s.mem g := by
    intro g j hj
    have hlt : j < n := by
      have := List.mem_range'_1.mp hj
      omega
    have hval : x (4 * j) = s.mem (src + j) := by
      have := hreg j hlt
      rwa [hframe] at this
    funext y
    by_cases hy : y = d + j
    · rw [hy, Nat.one_mul, blit_of_mem (Nat.le_refl _) (Nat.lt_succ_self _),
        blit_of_mem (Nat.le_refl _) (Nat.lt_succ_self _), Nat.sub_self]
      exact hval
    · rw [blit_of_not_mem (by omega), blit_of_not_mem (by omega)]
  have hstore := foldl_blit d src 0 1 n s.mem s.mem
  rw [hframe, (sbs_stored _ n d).2, List.foldl_ext _ _ _ hbyte, hstore]
  simp [copy]

/-- A strip that fits into one group, whatever its length. -/
theorem strip_mem (U : VectorUnit) (s : State) (r src d : Nat) :
    (vse32 (vle32 U s r src) r d).mem = copy d src (4 * s.vl) s.mem := blit_through

end DataMove

end Rlc

end CachePool
