import CachePool.Omp.StaticUnsigned

/-!
# The loops that static scheduling partitions

The iterations left over are added to the start of a thread without the increment, and the flag is only set
where the start is not above the upper bound.  So with a remainder the increment must be one, and downwards a
thread can have one iteration only; what is left are the conversions of `_4u`, the unsigned trip count of
`_8u`, and overflow.

* `SplitsConverted` — the condition for `_4u`; `Splits` and `SplitsUnsigned` are those for the other two.
* `forStaticInit_partitions_iff` — the three functions.
-/

set_option autoImplicit false

namespace CachePool

namespace Omp

open CInt

variable {H n T : Nat} {lower upper incr : Int}

/-- The loop with `n` iterations from `lower` on is one that `_4u` splits among `T` threads: within one half
of the values it is for `_4`, and the idle threads' bounds are empty as unsigned numbers. -/
def SplitsConverted (H : Nat) (lower upper : Int) (n T : Nat) (incr : Int) : Prop :=
  if lower < H ↔ upper < H then
    Splits H (toSigned H lower) n T incr ∧
      (n < T → Empty incr (toUnsigned H (idleBegin H (toSigned H lower) n))
      (toUnsigned H (idleBegin H (toSigned H lower) n - incr)))
  else 0 < n ∧ T = 1 ∧ incr < 0 ∧ incr ∣ 2 * H ∧ Fits H (toSigned H upper - toSigned H lower)

theorem sameHalf_iff (hH : 0 < H) (hlower : 0 ≤ lower ∧ lower < 2 * H) (hupper : 0 ≤ upper ∧ upper < 2 * H) :
    toSigned H lower - lower = toSigned H upper - upper ↔ (lower < H ↔ upper < H) := by
  have hsigned : ∀ x : Int, 0 ≤ x ∧ x < 2 * H → toSigned H x - x = if x < H then 0 else -(2 * (H : Int)) := by
    rintro x ⟨h0, h⟩
    split
    · next hlt =>
      rw [toSigned_of_fits (by unfold Fits; omega)]
      omega
    · next hge =>
      rw [toSigned_of_ge (Int.not_lt.mp hge) h]
      omega
  rw [hsigned lower hlower, hsigned upper hupper]
  split <;> split <;> omega

theorem converted_signed_iff (hH : 2 ≤ H) (hT : 0 < T) (hTH : T ≤ H) (hincr : incr ≠ 0) (hincr' : Fits H incr)
    (hupper : upper = lower + (n - 1) * incr) (hlower : 0 ≤ lower ∧ lower < 2 * H)
    (hupper' : 0 ≤ upper ∧ upper < 2 * H) :
    Partitions lower n T incr (fun t =>
        (staticInitSigned H T t (toSigned H lower) (toSigned H upper) incr).map
          (Bounds.converted (toUnsigned H))) ↔
      SplitsConverted H lower upper n T incr := by
  have hsame := sameHalf_iff (by omega) hlower hupper'
  unfold SplitsConverted
  split
  · next h => exact sameHalf_partitions_iff hincr (by omega) hT hincr' hupper hlower hupper' (hsame.mpr h)
  · next h =>
    have hne : toSigned H lower - lower ≠ toSigned H upper - upper := fun heq => h (hsame.mp heq)
    exact crossing_partitions_iff hH hT hTH hincr hincr' hupper hlower hupper' hne

/-- **Static scheduling.**  Which loops, with the upper bound the last value, the calls of a team partition;
its size is a `char`. -/
theorem forStaticInit_partitions_iff (hT : 0 < T) (hteam : T < 2 ^ 8) (hincr : incr ≠ 0)
    (hupper : upper = lower + (n - 1) * incr) :
    (Fits half32 lower → Fits half32 upper → Fits half32 incr →
      (Partitions lower n T incr (fun t => forStaticInit4 T t lower upper incr) ↔
        Splits half32 lower n T incr)) ∧
    (0 ≤ lower ∧ lower < 2 * half32 → 0 ≤ upper ∧ upper < 2 * half32 → Fits half32 incr →
      (Partitions lower n T incr (fun t => forStaticInit4u T t lower upper incr) ↔
        SplitsConverted half32 lower upper n T incr)) ∧
    (0 ≤ lower ∧ lower < 2 * half64 → 0 ≤ upper ∧ upper < 2 * half64 → Fits half64 incr →
      (Partitions lower n T incr (fun t => forStaticInit8u T t lower upper incr) ↔
        SplitsUnsigned half64 lower upper n T incr)) := by
  refine ⟨?_, ?_, ?_⟩
  · intro hlower hupper' hincr'
    exact signed_partitions_iff hincr (by decide) hT hincr' hupper hlower hupper'
  · intro hlower hupper' hincr'
    exact converted_signed_iff (by decide) hT (Nat.le_trans hteam.le (by decide)) hincr hincr' hupper
      hlower hupper'
  · intro hlower hupper' hincr'
    have hteam' : 2 * T ≤ 2 * 2 ^ 8 := Nat.mul_le_mul_left 2 hteam.le
    exact unsigned_partitions_iff (by decide) hT (Nat.le_trans hteam' (by decide)) hincr hincr' hupper
      hlower hupper'

/-- Two threads share the loop from 0 to 3. -/
theorem forStaticInit_partitions_four :
    Partitions 0 4 2 1 (fun t => forStaticInit4 2 t 0 3 1) ∧
    Partitions 0 4 2 1 (fun t => forStaticInit4u 2 t 0 3 1) ∧
    Partitions 0 4 2 1 (fun t => forStaticInit8u 2 t 0 3 1) := by
  obtain ⟨h4, h4u, h8u⟩ := @forStaticInit_partitions_iff 4 2 0 3 1
    (by decide) (by decide) (by decide) (by decide)
  have hsplits : Splits half32 0 4 2 1 :=
    ⟨by decide, by decide, fun _ => by decide, by decide, by decide, by decide⟩
  refine ⟨(h4 (by decide) (by decide) (by decide)).mpr hsplits,
    (h4u (by decide) (by decide) (by decide)).mpr ?_, (h8u (by decide) (by decide) (by decide)).mpr ?_⟩
  · rw [SplitsConverted, if_pos (by decide)]
    exact ⟨hsplits, fun hlt => absurd hlt (by decide)⟩
  · refine ⟨by decide, fun t ht => ?_, fun hlt => absurd hlt (by decide), by decide⟩
    obtain rfl | rfl : t = 0 ∨ t = 1 := by omega
    · exact ⟨by decide, by decide, by decide, by decide⟩
    · exact ⟨by decide, by decide, by decide, by decide⟩

/-- Two threads of which the second one begins between the values of the loop. -/
theorem not_partitions_of_bounds {call : Nat → Option Bounds} (hfirst : call 0 = some ⟨0, 2, false, 3⟩)
    (hsecond : call 1 = some ⟨3, 3, false, 3⟩) : ¬ Partitions 0 3 2 2 call := by
  rintro ⟨r, hcall, hp⟩
  have hr₀ : r 0 = ⟨0, 2, false, 3⟩ := Option.some.inj ((hcall 0 (by decide)).symm.trans hfirst)
  have hr₁ : r 1 = ⟨3, 3, false, 3⟩ := Option.some.inj ((hcall 1 (by decide)).symm.trans hsecond)
  obtain ⟨t, ⟨ht, hv⟩, -⟩ := hp.once 2 (by decide)
  obtain rfl | rfl : t = 0 ∨ t = 1 := by omega
  · rw [hr₀] at hv
    obtain ⟨j, -, hle⟩ := hv
    exact absurd hle (by decide)
  · rw [hr₁] at hv
    obtain ⟨j, -, hle⟩ := hv
    exact absurd hle (by decide)

/-- Steps of two from 0 to 4: the second thread begins with 3, and 4 is left out. -/
theorem forStaticInit_misses :
    ¬ Partitions 0 3 2 2 (fun t => forStaticInit4 2 t 0 4 2) ∧
    ¬ Partitions 0 3 2 2 (fun t => forStaticInit4u 2 t 0 4 2) ∧
    ¬ Partitions 0 3 2 2 (fun t => forStaticInit8u 2 t 0 4 2) :=
  ⟨not_partitions_of_bounds (by decide) (by decide), not_partitions_of_bounds (by decide) (by decide),
    not_partitions_of_bounds (by decide) (by decide)⟩

end Omp

end CachePool
