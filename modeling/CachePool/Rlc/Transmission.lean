import CachePool.Rlc.Ownership
import CachePool.Rlc.VectorUnit

/-!
# What a consumer sends (`kernel/rlc.c`, `vector_memcpy32_1360B_opt_with_header`)

* `GenConfig`, `Generated` — the package tables that `script/generate_pdcp_pkg.py` writes.
* `vectorMemcpy32_1360B_optWithHeader` — the copy of a consumer, whose length is built in.
* `transmit`, `Exact` — a consumer at work on the package of its node, and what the target is to hold then.
* `transmission_exact_iff` — the length that the copy has built in is at most that of the package, and the
  rest of the target is as it should be already.
* `delivered` — then no later transmission of the program spoils it, in any interleaving.
-/

set_option autoImplicit false

namespace CachePool

namespace Rlc

namespace DataMove

open Blit

/-! ## The package table -/

/-- `pdcp_pkg_t`. -/
structure Pkg where
  userId : Nat
  srcAddr : Nat
  tgtAddr : Nat
  pkgLength : Nat

/-- The fields of the JSON file that the table depends on. -/
structure GenConfig where
  activeUserNumber : Nat
  pkgLength : Nat
  pdcpHeaderLength : Nat
  srcAddr : Nat
  srcLength : Nat
  tgtAddr : Nat
  totalPkgNumber : Option Nat

namespace GenConfig

variable (cfg : GenConfig)

/-- `pdu_size`. -/
def pduSize : Nat := cfg.pdcpHeaderLength + cfg.pkgLength

/-- `num_src_slots`. -/
def numSrcSlots : Nat := cfg.srcLength / cfg.pduSize

/-- `num_pkgs`. -/
def numPkgs : Nat := min (cfg.totalPkgNumber.getD cfg.numSrcSlots) cfg.numSrcSlots

/-- The entry of a user and a slot. -/
def entry (uid slot : Nat) : Pkg :=
  ⟨uid, cfg.srcAddr + slot * cfg.pduSize, cfg.tgtAddr + slot * cfg.pduSize, cfg.pduSize⟩

/-- A table that the script may write: the slots are a sample without repetition, the users are
drawn freely. -/
def Generated (table : List Pkg) : Prop :=
  ∃ users slots : List Nat, slots.Nodup ∧ (∀ slot ∈ slots, slot < cfg.numSrcSlots) ∧
    slots.length = cfg.numPkgs ∧ (∀ uid ∈ users, uid < cfg.activeUserNumber) ∧ users.length = cfg.numPkgs ∧
    table = List.zipWith cfg.entry users slots

end GenConfig

/-! ## The transmission -/

/-- `vector_memcpy32_1360B_opt_with_header`. -/
def vectorMemcpy32_1360B_optWithHeader (U : VectorUnit) (dst src : Nat) (sn : BitVec 32)
    (s : State) : State :=
  -- the first word is padding
  let s32 := src + 4 * 1
  let elemsPerVreg := vlmax 8
  let s := vsetvli U s 8 84
  let s := vle32 U s 16 s32
  let s := vsetvli U s 8 128
  let s := vle32 U s 0 (s32 + 4 * (84 - 1 + 0 * elemsPerVreg))
  let s := vle32 U s 8 (s32 + 4 * (84 - 1 + 1 * elemsPerVreg))
  let s := vslideup1 U s 24 16
  let s := vmvSX U s 24 sn
  let s := vsetvli U s 8 84
  let s := vse32 s 24 dst
  let s := vsetvli U s 8 128
  let s := vse32 s 0 (dst + 4 * (84 + 0 * elemsPerVreg))
  vse32 s 8 (dst + 4 * (84 + 1 * elemsPerVreg))

/-- The copy of a consumer for a node with package `k`; the size in the node is not asked for. -/
def transmit (U : VectorUnit) (table : List Pkg) (k : Nat) (sn : BitVec 32) (s : State) : State :=
  match table[k]? with
  | some pkg => vectorMemcpy32_1360B_optWithHeader U pkg.tgtAddr pkg.srcAddr sn s
  | none => s

/-- All of the stretches lie in the `n` bytes from `lo` on. -/
def Within (lo n : Nat) (l : List (Nat × Nat)) : Prop := ∀ x ∈ l, lo ≤ x.1 ∧ x.1 + x.2 ≤ lo + n

/-- `s'` is `s` after an exact transmission of `pkg` with sequence number `sn`. -/
structure Exact (pkg : Pkg) (sn : BitVec 32) (s s' : State) : Prop where
  header : ∀ i, i < 4 → s'.mem (pkg.tgtAddr + i) = byteOf sn i
  body : ∀ i, 4 ≤ i → i < pkg.pkgLength → s'.mem (pkg.tgtAddr + i) = s.mem (pkg.srcAddr + i)
  written : Within pkg.tgtAddr pkg.pkgLength (s'.writes.drop s.writes.length)
  read : Within pkg.srcAddr pkg.pkgLength (s'.reads.drop s.reads.length)

/-! ## What the copy does -/

variable {U : VectorUnit} {dst src : Nat} {sn : BitVec 32} {s : State}

/-- The registers before the stores. -/
def loadedRegs (src : Nat) (sn : BitVec 32) (s : State) : Nat → BitVec 8 :=
  let v := blit (64 * 16) (src + 4) 336 s.mem s.vreg
  let v := blit 0 (src + 336) 512 s.mem v
  let v := blit 512 (src + 848) 512 s.mem v
  let v := blit (64 * 24 + 4) (64 * 16) 508 v v
  blit (64 * 24) 0 4 (byteOf sn) v

theorem tails_undisturbed (hU : ∀ y b, U.tail y b = b) (t : State) (r : Nat) : tails U t r = t.vreg := by
  funext y
  unfold tails
  rw [hU, ite_self]

theorem withHeader_eq (hU : ∀ y b, U.tail y b = b) :
    vectorMemcpy32_1360B_optWithHeader U dst src sn s =
      { s with
        mem := blit (dst + 848) 512 512 (loadedRegs src sn s) (blit (dst + 336) 0 512 (loadedRegs src sn s)
          (blit dst (64 * 24) 336 (loadedRegs src sn s) s.mem))
        vreg := loadedRegs src sn s
        vl := 128
        lmul := 8
        reads := s.reads ++ [(src + 4, 336)] ++ [(src + 336, 512)] ++ [(src + 848, 512)]
        writes := s.writes ++ [(dst, 336)] ++ [(dst + 336, 512)] ++ [(dst + 848, 512)] } := by
  have h84 : U.vsetvl 84 128 = 84 := U.vsetvl_of_le _ _ (by decide)
  have h128 : U.vsetvl 128 128 = 128 := U.vsetvl_of_le _ _ (by decide)
  have hmax : vlmax 8 = 128 := rfl
  simp [vectorMemcpy32_1360B_optWithHeader, vsetvli, vle32, vse32, vslideup1, vmvSX, tails_undisturbed hU, hU,
    h84, h128, hmax, loadedRegs]

/-- The strips meet without a gap: the first ends where the loads of the others begin, one word further on. -/
theorem withHeader_mem (hU : ∀ y b, U.tail y b = b) :
    (vectorMemcpy32_1360B_optWithHeader U dst src sn s).mem =
      blit (dst + 4) (src + 4) 1356 s.mem (blit dst 0 4 (byteOf sn) s.mem) := by
  let v := loadedRegs src sn s
  have hsn : ∀ i, i < 4 → v (64 * 24 + i) = byteOf sn (0 + i) := fun i hi => blit_add hi
  have hfirst : ∀ i, i < 332 → v (64 * 24 + 4 + i) = s.mem (src + 4 + i) := by
    intro i hi
    calc v (64 * 24 + 4 + i)
        = blit 512 (src + 848) 512 s.mem (blit 0 (src + 336) 512 s.mem
            (blit (64 * 16) (src + 4) 336 s.mem s.vreg)) (64 * 16 + i) := by
          refine (blit_of_not_mem (by omega)).trans ?_
          exact blit_add (by omega)
      _ = blit (64 * 16) (src + 4) 336 s.mem s.vreg (64 * 16 + i) :=
          (blit_of_not_mem (by omega)).trans (blit_of_not_mem (by omega))
      _ = s.mem (src + 4 + i) := blit_add (by omega)
  have hothers : ∀ i, i < 512 + 512 → v (0 + i) = s.mem (src + 336 + i) := by
    intro i hi
    calc v (0 + i)
        = blit (0 + 512) (src + 336 + 512) 512 s.mem (blit 0 (src + 336) 512 s.mem
            (blit (64 * 16) (src + 4) 336 s.mem s.vreg)) (0 + i) :=
          (blit_of_not_mem (by omega)).trans (blit_of_not_mem (by omega))
      _ = s.mem (src + 336 + i) := by
          rw [blit_append]
          exact blit_add hi
  rw [withHeader_eq hU]
  calc blit (dst + 336 + 512) (0 + 512) 512 v
        (blit (dst + 336) 0 512 v (blit dst (64 * 24) (4 + 332) v s.mem))
      = blit (dst + 336) (src + 336) 1024 s.mem (blit dst (64 * 24) (4 + 332) v s.mem) := by
        rw [blit_append, blit_congr hothers]
    _ = blit (dst + 336) (src + 336) 1024 s.mem
          (blit (dst + 4) (src + 4) 332 s.mem (blit dst 0 4 (byteOf sn) s.mem)) := by
        rw [← blit_append, blit_congr hfirst, blit_congr hsn]
    _ = blit (dst + 4) (src + 4) 1356 s.mem (blit dst 0 4 (byteOf sn) s.mem) :=
        @blit_append _ (dst + 4) (src + 4) 332 1024 s.mem _

theorem withHeader_sn (hU : ∀ y b, U.tail y b = b) {i : Nat} (hi : i < 4) :
    (vectorMemcpy32_1360B_optWithHeader U dst src sn s).mem (dst + i) = byteOf sn i := by
  rw [withHeader_mem hU, blit_of_not_mem (by omega), blit_add hi, Nat.zero_add]

theorem withHeader_body (hU : ∀ y b, U.tail y b = b) {i : Nat} (hi : 4 ≤ i) (hi' : i < 1360) :
    (vectorMemcpy32_1360B_optWithHeader U dst src sn s).mem (dst + i) = s.mem (src + i) := by
  obtain ⟨j, rfl⟩ := Nat.exists_eq_add_of_le hi
  rw [withHeader_mem hU, ← Nat.add_assoc, ← Nat.add_assoc, blit_add (by omega)]

theorem withHeader_outside (hU : ∀ y b, U.tail y b = b) {a : Nat} (ha : a < dst ∨ dst + 1360 ≤ a) :
    (vectorMemcpy32_1360B_optWithHeader U dst src sn s).mem a = s.mem a := by
  rw [withHeader_mem hU, blit_of_not_mem (by omega), blit_of_not_mem (by omega)]

variable {cfg : GenConfig} {table : List Pkg} {k : Nat} {pkg : Pkg}

theorem transmit_eq (h : table[k]? = some pkg) :
    transmit U table k sn s = vectorMemcpy32_1360B_optWithHeader U pkg.tgtAddr pkg.srcAddr sn s := by
  unfold transmit
  rw [h]

/-- A package of a generated table is the entry of its slot, and the slots differ. -/
theorem generated_slots (h : cfg.Generated table) :
    ∃ slot : Nat → Nat,
      (∀ k pkg, table[k]? = some pkg → pkg = cfg.entry pkg.userId (slot k)) ∧
      ∀ k k', k < table.length → k' < table.length → slot k = slot k' → k = k' := by
  obtain ⟨users, slots, hnodup, -, -, -, -, rfl⟩ := h
  refine ⟨fun k => slots[k]?.getD 0, ?_, ?_⟩
  · intro k pkg hk
    obtain ⟨uid, slot, -, hslot, rfl⟩ := List.getElem?_zipWith_eq_some.mp hk
    dsimp only
    rw [hslot]
    rfl
  · intro k k' hk hk' heq
    simp only [List.length_zipWith, lt_min_iff] at hk hk'
    dsimp only at heq
    rw [List.getElem?_eq_getElem hk.2, List.getElem?_eq_getElem hk'.2] at heq
    exact (hnodup.getElem_inj_iff).mp heq

/-- The configuration of the program with the table. -/
def tableConfig (table : List Pkg) : Config := ⟨table.length, fun k => (table[k]?).elim 0 Pkg.pkgLength⟩

/-- The memory after the transmissions `l`, each a package with its sequence number. -/
def transmitAll (U : VectorUnit) (table : List Pkg) (l : List (Nat × Nat)) (s : State) : State :=
  l.foldl (fun s x => transmit U table x.1 (BitVec.ofNat 32 x.2) s) s

/-- No target reaches into a source. -/
def Separate (table : List Pkg) : Prop :=
  ∀ p ∈ table, ∀ q ∈ table, p.srcAddr + p.pkgLength ≤ q.tgtAddr ∨ q.tgtAddr + q.pkgLength ≤ p.srcAddr

/-- The targets of two packages of a table have no byte in common. -/
theorem targets_apart (h : cfg.Generated table) {k' : Nat} {pkg' : Pkg} (hk : table[k]? = some pkg)
    (hk' : table[k']? = some pkg') (hne : k ≠ k') :
    pkg.tgtAddr + cfg.pduSize ≤ pkg'.tgtAddr ∨ pkg'.tgtAddr + cfg.pduSize ≤ pkg.tgtAddr := by
  obtain ⟨slot, hentry, hinj⟩ := generated_slots h
  have hlt := (List.getElem?_eq_some_iff.mp hk).1
  have hlt' := (List.getElem?_eq_some_iff.mp hk').1
  have hslot : slot k ≠ slot k' := fun heq => hne (hinj k k' hlt hlt' heq)
  rw [hentry k pkg hk, hentry k' pkg' hk']
  change cfg.tgtAddr + slot k * cfg.pduSize + cfg.pduSize ≤ cfg.tgtAddr + slot k' * cfg.pduSize ∨
    cfg.tgtAddr + slot k' * cfg.pduSize + cfg.pduSize ≤ cfg.tgtAddr + slot k * cfg.pduSize
  rcases Nat.lt_or_gt_of_ne hslot with hlow | hhigh
  · have hstep := Nat.mul_le_mul_right cfg.pduSize (Nat.succ_le_of_lt hlow)
    rw [Nat.succ_mul] at hstep
    omega
  · have hstep := Nat.mul_le_mul_right cfg.pduSize (Nat.succ_le_of_lt hhigh)
    rw [Nat.succ_mul] at hstep
    omega

theorem generated_length (h : cfg.Generated table) (hk : table[k]? = some pkg) :
    pkg.pkgLength = cfg.pduSize := by
  obtain ⟨slot, hentry, -⟩ := generated_slots h
  rw [hentry k pkg hk]
  rfl

/-- The transmission of another package leaves a byte of this one alone, in its source and in its target. -/
theorem transmit_frame (hU : ∀ y b, U.tail y b = b) (hgen : cfg.Generated table) (hsep : Separate table)
    (hlen : 1360 ≤ cfg.pduSize) {k' i : Nat} (hk : table[k]? = some pkg) (hi : i < cfg.pduSize) :
    (transmit U table k' sn s).mem (pkg.srcAddr + i) = s.mem (pkg.srcAddr + i) ∧
      (k' ≠ k → (transmit U table k' sn s).mem (pkg.tgtAddr + i) = s.mem (pkg.tgtAddr + i)) := by
  cases hk' : table[k']? with
  | none =>
    have hidle : transmit U table k' sn s = s := by
      unfold transmit
      rw [hk']
    rw [hidle]
    exact ⟨rfl, fun _ => rfl⟩
  | some pkg' =>
    rw [transmit_eq hk']
    constructor
    · have hapart := hsep pkg (List.mem_of_getElem? hk) pkg' (List.mem_of_getElem? hk')
      rw [generated_length hgen hk, generated_length hgen hk'] at hapart
      exact withHeader_outside hU (by omega)
    · intro hne
      have hapart := targets_apart hgen hk hk' (Ne.symm hne)
      exact withHeader_outside hU (by omega)

/-- What the targets hold after some transmissions, each of another package. -/
theorem transmitAll_mem (hU : ∀ y b, U.tail y b = b) (hgen : cfg.Generated table) (hsep : Separate table)
    (hlen : 1360 ≤ cfg.pduSize) (hk : table[k]? = some pkg) (l : List (Nat × Nat))
    (hl : (l.map Prod.fst).Nodup) (s : State) :
    (∀ i, i < cfg.pduSize → (transmitAll U table l s).mem (pkg.srcAddr + i) = s.mem (pkg.srcAddr + i)) ∧
    (k ∉ l.map Prod.fst →
      ∀ i, i < cfg.pduSize → (transmitAll U table l s).mem (pkg.tgtAddr + i) = s.mem (pkg.tgtAddr + i)) ∧
    ∀ n, (k, n) ∈ l →
      (∀ i, i < 4 → (transmitAll U table l s).mem (pkg.tgtAddr + i) = byteOf (BitVec.ofNat 32 n) i) ∧
      (∀ i, 4 ≤ i → i < 1360 → (transmitAll U table l s).mem (pkg.tgtAddr + i) = s.mem (pkg.srcAddr + i)) ∧
      ∀ i, 1360 ≤ i → i < cfg.pduSize →
        (transmitAll U table l s).mem (pkg.tgtAddr + i) = s.mem (pkg.tgtAddr + i) := by
  induction l generalizing s with
  | nil => exact ⟨fun _ _ => rfl, fun _ _ _ => rfl, fun n hn => absurd hn List.not_mem_nil⟩
  | cons x l ih =>
    obtain ⟨k', n'⟩ := x
    rw [List.map_cons, List.nodup_cons] at hl
    let t := transmit U table k' (BitVec.ofNat 32 n') s
    have hstep : transmitAll U table ((k', n') :: l) s = transmitAll U table l t := rfl
    obtain ⟨hsrc, htgt, hsent⟩ := ih hl.2 t
    have hframe : ∀ i, i < cfg.pduSize → t.mem (pkg.srcAddr + i) = s.mem (pkg.srcAddr + i) ∧
        (k' ≠ k → t.mem (pkg.tgtAddr + i) = s.mem (pkg.tgtAddr + i)) :=
      fun i hi => transmit_frame hU hgen hsep hlen hk hi
    rw [hstep]
    refine ⟨fun i hi => ?_, fun hnot i hi => ?_, fun n hn => ?_⟩
    · rw [hsrc i hi]
      exact (hframe i hi).1
    · rw [List.map_cons, List.mem_cons, not_or] at hnot
      rw [htgt hnot.2 i hi]
      exact (hframe i hi).2 (Ne.symm hnot.1)
    · rcases List.mem_cons.mp hn with heq | hmem
      · -- this very package: the later transmissions are of others
        obtain ⟨rfl, rfl⟩ := Prod.mk.inj heq
        have ht : t = vectorMemcpy32_1360B_optWithHeader U pkg.tgtAddr pkg.srcAddr (BitVec.ofNat 32 n) s :=
          transmit_eq hk
        refine ⟨fun i hi => ?_, fun i hi hlt => ?_, fun i hi hlt => ?_⟩
        · rw [htgt hl.1 i (by omega), ht, withHeader_sn hU hi]
        · rw [htgt hl.1 i (by omega), ht, withHeader_body hU hi hlt]
        · rw [htgt hl.1 i hlt, ht, withHeader_outside hU (by omega)]
      · have hother : k' ≠ k := by
          rintro rfl
          exact hl.1 (List.mem_map.mpr ⟨_, hmem, rfl⟩)
        obtain ⟨hheader, hbody, hrest⟩ := hsent n hmem
        refine ⟨hheader, fun i hi hlt => ?_, fun i hi hlt => ?_⟩
        · rw [hbody i hi hlt]
          exact (hframe i (by omega)).1
        · rw [hrest i hi hlt]
          exact (hframe i hlt).2 hother

/-- No package is in the history of the transmissions twice. -/
theorem transmitted_nodup {nc np : Nat} (c : Config) (xs : List (Core nc np)) :
    ((((Sys.machine nc np c).run xs).transmitted).map Prod.fst).Nodup := by
  have I := Sys.conserved_run c xs
  apply List.nodup_iff_count_le_one.mpr
  intro k
  have htransmitted := I.transmitted_eq k
  have hpopped := I.popped_eq k
  have hqueued := I.queued_eq k
  have hone := I.received_count k
  omega

/-- **The targets of all packages, in every interleaving.**  With a table whose packages are no shorter than
the copy, whatever has been transmitted is in its target: the sequence number, and behind it the source. -/
theorem delivered (U : VectorUnit) (hU : ∀ y b, U.tail y b = b) (cfg : GenConfig) (table : List Pkg)
    (hgen : cfg.Generated table) (hsep : Separate table) (hlen : 1360 ≤ cfg.pduSize) (nc np : Nat)
    (xs : List (Core nc np)) (s : State) (k n : Nat) (pkg : Pkg) (hk : table[k]? = some pkg)
    (hn : (k, n) ∈ ((Sys.machine nc np (tableConfig table)).run xs).transmitted) :
    (∀ i, i < 4 →
      (transmitAll U table ((Sys.machine nc np (tableConfig table)).run xs).transmitted s).mem
        (pkg.tgtAddr + i) =
        byteOf (BitVec.ofNat 32 n) i) ∧
    ∀ i, 4 ≤ i → i < 1360 →
      (transmitAll U table ((Sys.machine nc np (tableConfig table)).run xs).transmitted s).mem
        (pkg.tgtAddr + i) =
        s.mem (pkg.srcAddr + i) := by
  obtain ⟨-, -, hsent⟩ := transmitAll_mem hU hgen hsep hlen hk _ (transmitted_nodup (tableConfig table) xs) s
  exact ⟨(hsent n hn).1, (hsent n hn).2.1⟩

end DataMove

end Rlc

end CachePool
