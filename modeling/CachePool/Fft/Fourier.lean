import CachePool.Fft.Transform
import Mathlib.Data.ZMod.Basic

/-!
# The discrete Fourier transform (`fft-32b/script/gen_data.py`)

With exact arithmetic, and the powers of a root of unity in the tables, what the cores compute is the discrete
Fourier transform.

* `Exact`, `Roots` — exact arithmetic, and the tables that are generated.
* `fft_dft` — the discrete Fourier transform, in order.
-/

set_option autoImplicit false

namespace CachePool

namespace Fft

open Threads Linalg

universe u v

variable {F : Type u} {C : Type v} [CommRing C]

/-- The unit calculates exactly with what its words stand for. -/
structure Exact (U : FftUnit F) (φ : F → C) : Prop where
  fadd : ∀ a b, φ (U.fadd a b) = φ a + φ b
  fsub : ∀ a b, φ (U.fsub a b) = φ a - φ b
  fmul : ∀ a b, φ (U.fmul a b) = φ a * φ b
  fmacc : ∀ a b d, φ (U.fmacc a b d) = φ a * φ b + φ d
  fnmsac : ∀ a b d, φ (U.fnmsac a b d) = -(φ a * φ b) + φ d

/-- What a complex number stands for, with `I` for the imaginary unit. -/
def val (φ : F → C) (I : C) (z : F × F) : C := φ z.1 + φ z.2 * I

/-- The tables of `gen_data.py`: `ω` is a root of unity for all points, and `ω ^ activeCores` one for those of
a core (`setupTwiddlesLUT_dif_vec`). -/
structure Roots (d : Header) (m : Nat → F) (φ : F → C) (I ω : C) : Prop where
  root : ω ^ 2 ^ (d.log2Nfft - 1) = -1
  first : ∀ s < d.log2Nfft1, ∀ t < d.nfft >>> (s + 1),
    val φ I (m (d.twiddleDram + (d.nfft - d.nfft >>> s) + t),
      m (d.twiddleDram + (d.nfft - d.nfft >>> s) + t + d.ntwiP1)) = ω ^ (2 ^ s * t)
  second : ∀ s < d.log2Nfft2, ∀ t < d.nfftPc >>> 1,
    val φ I (m (d.twiddleDram + 2 * d.ntwiP1 + (s * (d.nfftPc >>> 1) + t)),
      m (d.twiddleDram + 2 * d.ntwiP1 + d.ntwiP2 + (s * (d.nfftPc >>> 1) + t))) =
      (ω ^ d.activeCores) ^ (2 ^ s * t % (d.nfftPc >>> 1))

variable {U : FftUnit F} {d : Header} {m : Nat → F} {φ : F → C} {I ω : C} {H : Nat}

theorem val_sum (h : Exact U φ) (a b : F × F) :
    val φ I ((stages U).sum a b) = val φ I a + val φ I b := by
  simp only [val, stages, h.fadd]
  ring

/-- A twiddle factor, or none. -/
def factor (φ : F → C) (I : C) : Option (F × F) → C
  | none => 1
  | some t => val φ I t

theorem val_twist (h : Exact U φ) (hI : I * I = -1) (t : Option (F × F)) (a b : F × F) :
    val φ I ((stages U).twist t a b) = (val φ I a - val φ I b) * factor φ I t := by
  cases t with
  | none =>
    simp only [val, stages, factor, h.fsub]
    ring
  | some t =>
    simp only [val, stages, factor, h.fsub, h.fmul, h.fmacc, h.fnmsac]
    linear_combination -(φ a.2 - φ b.2) * φ t.2 * hI

/-- The factor of every butterfly is the power that it has in the transform. -/
theorem factor_twiddle (h : Roots d m φ I ω) (hH : d.log2Nfft2 = H + 1) {s k o : Nat} (hs : s < d.log2Nfft)
    (hk : k < 2 ^ s) (ho : o < 2 ^ (d.log2Nfft - (s + 1))) :
    factor φ I (twiddle d m s k o) = ω ^ (2 ^ s * o) := by
  rw [log2Nfft_eq hH] at hs ho
  have hhalf : d.nfft >>> (s + 1) = 2 ^ (d.log2Nfft1 + H + 1 - (s + 1)) := by
    rw [nfft_eq hH, two_pow_shiftRight (by omega)]
  unfold twiddle
  by_cases hfirst : s < d.log2Nfft1
  · rw [if_pos hfirst]
    exact h.first s hfirst o (by rwa [hhalf])
  · rw [if_neg hfirst]
    by_cases hlast : s + 1 < d.log2Nfft1 + d.log2Nfft2
    · obtain ⟨b, rfl⟩ := Nat.exists_eq_add_of_le (Nat.le_of_not_lt hfirst)
      rw [if_pos hlast, Nat.add_sub_cancel_left, hhalf]
      have hlen : d.log2Nfft1 + H + 1 - (d.log2Nfft1 + b + 1) = H - b := by omega
      rw [hlen] at ho ⊢
      have hwhole : 2 ^ b * 2 ^ (H - b) = 2 ^ H := by
        rw [Nat.mul_comm, Nat.pow_sub_mul_pow 2 (by omega)]
      have hseq : k / d.activeCores < 2 ^ b := by
        rw [Header.activeCores, Nat.div_lt_iff_lt_mul (Nat.two_pow_pos _), ← Nat.pow_add, Nat.add_comm b]
        exact hk
      have hin : k / d.activeCores * 2 ^ (H - b) + o < 2 ^ H := by
        have hle := Nat.mul_le_mul_right (2 ^ (H - b)) (Nat.succ_le_of_lt hseq)
        rw [Nat.succ_mul, hwhole] at hle
        omega
      have hpower : 2 ^ b * (k / d.activeCores * 2 ^ (H - b) + o) % 2 ^ H = 2 ^ b * o := by
        have hlt : 2 ^ b * o < 2 ^ H := by
          rw [← hwhole]
          exact Nat.mul_lt_mul_of_pos_left ho (Nat.two_pow_pos b)
        rw [Nat.mul_add, Nat.mul_left_comm, hwhole, Nat.mul_comm _ (2 ^ H), Nat.mul_add_mod,
          Nat.mod_eq_of_lt hlt]
      have htable := h.second b (by omega) (k / d.activeCores * 2 ^ (H - b) + o) (by rwa [half_eq hH])
      rw [half_eq hH, hpower, ← pow_mul, Header.activeCores, ← Nat.mul_assoc, ← Nat.pow_add] at htable
      rw [half_eq hH]
      exact htable
    · rw [if_neg hlast]
      have hlen : d.log2Nfft1 + H + 1 - (s + 1) = 0 := by omega
      rw [hlen, Nat.pow_zero] at ho
      obtain rfl : o = 0 := by omega
      rw [Nat.mul_zero, pow_zero]
      rfl

/-- **The cores compute the discrete Fourier transform**, if the arithmetic is exact and the tables are the
generated ones: for every frequency the sum over all samples, each times its power of the root of unity. -/
theorem fft_dft {numCores fuel : Nat} (U : FftUnit F) (φ : F → C) (I ω : C) (d : Header) (hd : d.Fits)
    (m : Nat → F) (hart : Nat → Fin numCores → Hart F) (hcores : d.activeCores ≤ numCores)
    (hfuel : d.nfft < fuel) (hexact : Exact U φ) (hI : I * I = -1) (hroots : Roots d m φ I ω) :
    ∃ k : Nat → (Nat → F) → Fin numCores → Nat, ∀ xs : Nat → List (Fin numCores),
      (∀ i < d.log2Nfft1 + 1, ∀ cid, k i (phases (cores U d fuel hart) xs m i) cid ≤ (xs i).count cid) →
      ∀ q < d.nfft, val φ I (phases (cores U d fuel hart) xs m (d.log2Nfft1 + 1) (d.out + q),
          phases (cores U d fuel hart) xs m (d.log2Nfft1 + 1) (d.out + q + d.nfft)) =
        ∑ i ∈ Finset.range d.nfft, val φ I (samples d m i) * ω ^ (q * i) := by
  obtain ⟨H, hH⟩ : ∃ H, d.log2Nfft2 = H + 1 := ⟨d.log2Nfft2 - 1, by have := hd.points; omega⟩
  obtain ⟨k, hend⟩ := transform_finishes U hd m hart hcores hfuel
  refine ⟨k, fun xs hxs q hq => ?_⟩
  rw [(hend xs hxs).2.result rfl q hq]
  exact Dft.val_values_last (val_sum hexact) (val_twist hexact hI)
    (fun s k o hs hk ho => factor_twiddle hroots hH hs hk ho) hroots.root hq

theorem ringUnit_exact (R : Type u) [CommRing R] : Exact (ringUnit R) id where
  fadd _ _ := rfl
  fsub _ _ := rfl
  fmul _ _ := rfl
  fmacc _ _ _ := rfl
  fnmsac _ _ _ := rfl

/-- The tables for two cores with 4 points each, where the root of unity is 2. -/
def smallMemory (a : Nat) : ZMod 17 :=
  if a < 48 then a else [1, 2, 4, 8, 0, 0, 0, 0, 1, 4, 1, 1, 0, 0, 0, 0].getD (a - 48) 0

theorem smallMemory_roots : Roots smallHeader smallMemory id 4 2 where
  root := by decide
  first := by decide
  second := by decide

/-- Two cores transform 8 numbers modulo 17. -/
theorem fft_dft_two :
    let hart : Nat → Fin 2 → Hart (ZMod 17) := fun _ _ => ⟨fun _ => 0, 0, 1⟩
    let code := cores (ringUnit (ZMod 17)) smallHeader 100 hart
    ∃ k : Nat → (Nat → ZMod 17) → Fin 2 → Nat, ∀ xs : Nat → List (Fin 2),
      (∀ i < smallHeader.log2Nfft1 + 1, ∀ cid, k i (phases code xs smallMemory i) cid ≤ (xs i).count cid) →
      ∀ q < smallHeader.nfft,
        val id (4 : ZMod 17) (phases code xs smallMemory (smallHeader.log2Nfft1 + 1) (smallHeader.out + q),
          phases code xs smallMemory (smallHeader.log2Nfft1 + 1) (smallHeader.out + q + smallHeader.nfft)) =
        ∑ i ∈ Finset.range smallHeader.nfft, val id 4 (samples smallHeader smallMemory i) * 2 ^ (q * i) :=
  fft_dft (ringUnit (ZMod 17)) id 4 2 smallHeader smallHeader_fits smallMemory (fun _ _ => ⟨fun _ => 0, 0, 1⟩)
    (by decide) (by decide) (ringUnit_exact (ZMod 17)) (by decide) smallMemory_roots

end Fft

end CachePool
