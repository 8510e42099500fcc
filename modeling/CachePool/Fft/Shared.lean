import CachePool.Fft.Arrays
import CachePool.Fft.Layout

/-!
# A shared stage on the whole array

* `share`, `exists_share` — the places that a core writes in a shared stage; together all there are.
* `does_shared` — what a core writes: its share of the next array.
-/

set_option autoImplicit false

namespace CachePool

namespace Fft

open Threads Linalg

universe u

variable {F : Type u} {U : FftUnit F} {m : Nat → F} {R : Set Nat} {L H : Nat} {x : Nat → F × F}
variable {w : Nat → Nat → Nat → Option (F × F)}

/-- A block of stage `s` has two halves. -/
theorem half_mul_two (H : Nat) {s : Nat} (hs : s < L) : 2 ^ (L + H - s) * 2 = 2 ^ (L + H + 1 - s) := by
  rw [← Nat.pow_succ]
  congr 1
  omega

/-- Where core `cid` begins in stage `s`: in the block of its group, at its part. -/
def shareBase (L H s cid : Nat) : Nat := 2 ^ (L + H + 1 - s) * (cid / 2 ^ (L - s)) + cid % 2 ^ (L - s) * 2 ^ H

/-- What core `cid` writes in stage `s`. -/
def share (L H s cid : Nat) : Set Nat :=
  {q | ∃ i < 2 ^ H, q = shareBase L H s cid + i ∨ q = shareBase L H s cid + i + 2 ^ (L + H - s)}

/-- Butterfly `i` of the core is one of its block. -/
theorem part_lt (cid : Nat) {s i : Nat} (hs : s < L) (hi : i < 2 ^ H) :
    cid % 2 ^ (L - s) * 2 ^ H + i < 2 ^ (L + H - s) := by
  have hle := Nat.mul_le_mul_right (2 ^ H) (Nat.succ_le_of_lt (Nat.mod_lt cid (Nat.two_pow_pos (L - s))))
  rw [Nat.succ_mul, ← Nat.pow_add, ← Nat.sub_add_comm (by omega)] at hle
  omega

theorem group_lt {s cid : Nat} (hs : s < L) (hcid : cid < 2 ^ L) : cid / 2 ^ (L - s) < 2 ^ s := by
  rwa [Nat.div_lt_iff_lt_mul (Nat.two_pow_pos _), Nat.mul_comm, Nat.pow_sub_mul_pow 2 (by omega)]

theorem share_lt {s cid q : Nat} (hs : s < L) (hcid : cid < 2 ^ L) (hq : q ∈ share L H s cid) :
    q < 2 ^ (L + H + 1) := by
  have htwo := half_mul_two H hs
  have hwhole := Nat.mul_le_mul_left (2 ^ (L + H + 1 - s)) (Nat.succ_le_of_lt (group_lt hs hcid))
  rw [Nat.mul_succ, Nat.pow_sub_mul_pow 2 (by omega)] at hwhole
  obtain ⟨i, hi, hq⟩ := hq
  have hpart := part_lt cid hs hi
  rw [shareBase] at hq
  omega

/-- Every place is that of an output of a core. -/
theorem exists_share {s q : Nat} (hs : s < L) (hq : q < 2 ^ (L + H + 1)) :
    ∃ cid < 2 ^ L, q ∈ share L H s cid := by
  have htwo := half_mul_two H hs
  have hcores : 2 ^ (L - s) * 2 ^ H = 2 ^ (L + H - s) := by
    rw [← Nat.pow_add, ← Nat.sub_add_comm (by omega)]
  -- the block, the half and the butterfly
  have hg : q / 2 ^ (L + H + 1 - s) < 2 ^ s := by
    rwa [Nat.div_lt_iff_lt_mul (Nat.two_pow_pos _), Nat.mul_comm, Nat.pow_sub_mul_pow 2 (by omega)]
  have hidx : q % 2 ^ (L + H - s) / 2 ^ H < 2 ^ (L - s) := by
    rw [Nat.div_lt_iff_lt_mul (Nat.two_pow_pos _), hcores]
    exact Nat.mod_lt _ (Nat.two_pow_pos _)
  have hcid : 2 ^ (L - s) * (q / 2 ^ (L + H + 1 - s)) + q % 2 ^ (L + H - s) / 2 ^ H < 2 ^ L := by
    have hle := Nat.mul_le_mul_left (2 ^ (L - s)) (Nat.succ_le_of_lt hg)
    rw [Nat.mul_succ, Nat.pow_sub_mul_pow 2 (by omega)] at hle
    omega
  refine ⟨_, hcid, q % 2 ^ (L + H - s) % 2 ^ H, Nat.mod_lt _ (Nat.two_pow_pos H), ?_⟩
  have hbase : shareBase L H s (2 ^ (L - s) * (q / 2 ^ (L + H + 1 - s)) + q % 2 ^ (L + H - s) / 2 ^ H) +
        q % 2 ^ (L + H - s) % 2 ^ H =
      2 ^ (L + H + 1 - s) * (q / 2 ^ (L + H + 1 - s)) + q % 2 ^ (L + H - s) := by
    rw [shareBase, Nat.mul_add_div (Nat.two_pow_pos _), Nat.div_eq_of_lt hidx, Nat.mul_add_mod,
      Nat.mod_eq_of_lt hidx, Nat.add_assoc, Nat.div_add_mod']
    simp only [Nat.add_zero]
  rw [hbase]
  have hmod := mod_two_mul (2 ^ (L + H - s)) q
  have hdiv := Nat.div_add_mod q (2 ^ (L + H + 1 - s))
  have hhalf : q % 2 ^ (L + H + 1 - s) / 2 ^ (L + H - s) < 2 := by
    rw [Nat.div_lt_iff_lt_mul (Nat.two_pow_pos _), Nat.mul_comm 2, htwo]
    exact Nat.mod_lt _ (Nat.two_pow_pos _)
  rw [Nat.mul_comm 2, htwo] at hmod
  rcases Nat.le_one_iff_eq_zero_or_eq_one.mp (Nat.le_of_lt_succ hhalf) with h0 | h1
  · rw [h0, Nat.zero_mul] at hmod
    exact .inl (by omega)
  · rw [h1, Nat.one_mul] at hmod
    exact .inr (by omega)

/-- **A core in a shared stage** writes its share of the next array. -/
theorem does_shared (src buf twi ntwi : Nat) {s cid k : Nat} (hs : s < L) (hcid : cid < 2 ^ L)
    (hk : 2 ^ H < k) (h : Hart F)
    (hin : Holds m src (2 ^ (L + H + 1)) {q | q < 2 ^ (L + H + 1)} (inOrder (stages U) (L + H + 1) x w s))
    (hw : ∀ g o, o < 2 ^ (L + H - s) → w s g o = some (m (twi + o), m (twi + o + ntwi)))
    (hR : region src (2 ^ (L + H + 1)) {q | q < 2 ^ (L + H + 1)} ⊆ R)
    (hRtwi : ∀ o < 2 ^ (L + H - s), twi + o ∈ R ∧ twi + o + ntwi ∈ R) :
    ∃ l, Does m R (fftP1 U src buf twi (2 ^ (L + H + 1)) ntwi cid (2 ^ L) s (2 ^ H) k h)
      (cells buf (2 ^ (L + H + 1)) (share L H s cid) (inOrder (stages U) (L + H + 1) x w (s + 1))) l := by
  have hblock : 2 ^ (L + H + 1) >>> s = 2 ^ (L + H + 1 - s) := two_pow_shiftRight (by omega)
  have hhalf : 2 ^ (L + H + 1) >>> (s + 1) = 2 ^ (L + H - s) := by
    rw [two_pow_shiftRight (by omega), Nat.add_sub_add_right]
  have hcores : 2 ^ L >>> s = 2 ^ (L - s) := two_pow_shiftRight (by omega)
  have hself : 2 ^ L >>> s * (cid / 2 ^ (L - s)) + cid % 2 ^ (L - s) = cid := by
    rw [hcores]
    exact Nat.div_add_mod _ _
  have hidx : cid % 2 ^ (L - s) < 2 ^ L >>> s := by
    rw [hcores]
    exact Nat.mod_lt _ (Nat.two_pow_pos _)
  have hplaces : ∀ i < 2 ^ H, shareBase L H s cid + i ∈ {q | q < 2 ^ (L + H + 1)} ∧
      shareBase L H s cid + i + 2 ^ (L + H - s) ∈ {q | q < 2 ^ (L + H + 1)} := fun i hi =>
    ⟨share_lt hs hcid ⟨i, hi, .inl rfl⟩, share_lt hs hcid ⟨i, hi, .inr rfl⟩⟩
  obtain ⟨l, hdoes⟩ := does_fftP1 (U := U) (m := m) (R := R) src buf twi (2 ^ (L + H + 1)) ntwi
    (group_lt hs hcid) hidx hk h (by
      rintro i hi p rfl
      have hp : src + 2 ^ (L + H + 1) >>> s * (cid / 2 ^ (L - s)) + cid % 2 ^ (L - s) * 2 ^ H + i =
          src + (shareBase L H s cid + i) := by
        rw [hblock, shareBase]
        omega
      obtain ⟨hu, hl⟩ := hplaces i hi
      obtain ⟨hre, him⟩ := hRtwi _ (part_lt cid hs hi)
      rw [hp, hhalf]
      refine ⟨⟨hR (mem_region hu).1, hR (mem_region hu).2, hR ?_, hR ?_⟩, ?_, ?_⟩
      · rw [Nat.add_assoc src]
        exact (mem_region hl).1
      · rw [Nat.add_assoc src]
        exact (mem_region hl).2
      · rwa [Nat.add_assoc twi]
      · rwa [Nat.add_assoc twi])
  rw [hself] at hdoes
  refine ⟨l, hdoes.congr ?_⟩
  have hbase : ∀ p, p + 2 ^ (L + H + 1) >>> s * (cid / 2 ^ (L - s)) + cid % 2 ^ (L - s) * 2 ^ H =
      p + shareBase L H s cid := fun p => by
    rw [hblock, shareBase, Nat.add_assoc]
  simp only [butterfly, hbase, hhalf]
  refine outputs_cells (fun i => i) (fun i hi => ?_) fun _ => Iff.rfl
  obtain ⟨hu, hl⟩ := hplaces i hi
  have hat : shareBase L H s cid + i =
      2 ^ (L + H + 1 - s) * (cid / 2 ^ (L - s)) + (cid % 2 ^ (L - s) * 2 ^ H + i) := by
    rw [shareBase, Nat.add_assoc]
  obtain ⟨hsum, htwist⟩ := inOrder_next (stages U) (L + H + 1) x w (s := s) (g := cid / 2 ^ (L - s))
    (t := cid % 2 ^ (L - s) * 2 ^ H + i) (by omega)
    (by rw [Nat.add_sub_add_right]; exact part_lt cid hs hi)
  rw [Nat.add_sub_add_right, ← hat] at hsum htwist
  rw [rows_u hin hu, rows_l hin hl, hsum, htwist, hw _ _ (part_lt cid hs hi), Nat.add_right_comm _ ntwi,
    Nat.add_assoc twi]
  exact ⟨rfl, rfl, rfl⟩

end Fft

end CachePool
