import CachePool.Omp.ChunkedSigned

/-!
# Chunks with unsigned bounds

The values go around at the end of the type, in the bounds of a thread and in the distance that its flag is
computed from: a thread that begins behind the last chunk may get the flag by the width of the type.

* `InRange` — no thread begins beyond the type, and none that has iterations ends there.
* `FlagSetUnsigned` — when the flag is right, for a loop with iterations.
* `chunkedUnsigned_partitions_iff` — when the calls partition the loop.
* `forStaticInitChunked_partitions_iff` — the two functions of the runtime.
-/

set_option autoImplicit false

namespace CachePool

namespace Omp

open CInt Turns

variable {H c T t : Nat} {lower upper incr : Int} {rs : Nat → Bounds}

/-- The first chunk of each thread, in a loop with iterations. -/
def InRange (H : Nat) (lower upper incr : Int) (c T : Nat) : Prop :=
  ∀ t, t < T → lower + t * (incr * c) < 2 * H ∧
    (lower + t * (incr * c) ≤ upper → lower + t * (incr * c) + incr * c - incr < 2 * H)

/-- The flag in a loop with iterations, of which chunk `q` is the last.  If the lower bound is a multiple of
the span, the threads behind the last chunk must not get it; if not, nobody gets it but by going around. -/
def FlagSetUnsigned (H : Nat) (lower upper span : Int) (q T : Nat) : Prop :=
  if span ∣ lower then ∀ e : Nat, 0 < e → q + e < T → ¬ span * T ∣ 2 * H - span * e
  else lower % span ≤ upper % span ∧ q < T ∧ span * T ∣ 2 * H - lower % span

/-- The distance that the flag of thread `t` is computed from. -/
def flagDistance (H : Nat) (lower upper span : Int) (t : Nat) : Int :=
  toUnsigned H (upper - upper % span - (lower + t * span))

/-- The loops that are partitioned; `2 * H` is the width of the type. -/
structure SplitsChunked (H : Nat) (lower upper incr : Int) (c T : Nat) : Prop where
  stride : Fits H (incr * c * T)
  some : lower ≤ upper → InRange H lower upper incr c T ∧
    FlagSetUnsigned H lower upper (incr * c) (lastChunk lower upper incr c) T
  none : upper < lower → ∀ t, t < T →
    (2 * H ≤ lower + t * (incr * c) → upper < lower + t * (incr * c) - 2 * H) ∧
      ¬ incr * c * T ∣ flagDistance H lower upper (incr * c) t

/-- What thread `t` gets. -/
def unsignedChunk (H : Nat) (lower upper incr : Int) (c T t : Nat) : Bounds where
  plower := toUnsigned H (lower + t * (incr * c))
  pupper := toUnsigned H (toUnsigned H (lower + t * (incr * c)) + incr * c - incr)
  plastiter := decide (flagDistance H lower upper (incr * c) t % (incr * c * T) = 0)
  pstride := incr * c * T

theorem chunkedUnsigned_eq (hincr : 0 < incr) (hc : 0 < c) (hstride : Fits H (incr * c * T)) (ht : t < T) :
    staticChunkedUnsigned H T t lower upper incr c = some (unsignedChunk H lower upper incr c T t) := by
  have hspan := span_pos hincr hc
  have hround := turn_within hspan ht
  have hspanFits : Fits H (incr * c) := by
    unfold Fits at *
    omega
  have hoffset : Fits H (incr * c * t) := by
    unfold Fits at *
    omega
  unfold staticChunkedUnsigned
  simp only [signed_of_fits hspanFits, signed_of_fits hstride, signed_of_fits hoffset, Option.bind_eq_bind,
    Option.bind_some, toUnsigned_of_nonneg hspanFits hspan.le, toUnsigned_of_nonneg hstride (by omega)]
  have hcongr : toUnsigned H (toSigned H (upper - upper % (incr * c)) - toUnsigned H (lower + incr * c * t)) =
      flagDistance H lower upper (incr * c) t := by
    apply toUnsigned_congr
    have hdvd := dvd_sub (dvd_toSigned_sub H (upper - upper % (incr * c)))
      (dvd_toUnsigned_sub H (lower + incr * c * t))
    have hsplit : toSigned H (upper - upper % (incr * c)) - (upper - upper % (incr * c)) -
        (toUnsigned H (lower + incr * c * t) - (lower + incr * c * t)) =
        toSigned H (upper - upper % (incr * c)) - toUnsigned H (lower + incr * c * t) -
          (upper - upper % (incr * c) - (lower + t * (incr * c))) := by ring
    rwa [hsplit] at hdvd
  rw [hcongr, mul_comm (incr * c) (t : Int)]
  rfl

theorem stride_of_chunkedUnsigned {r : Bounds}
    (h : staticChunkedUnsigned H T t lower upper incr c = some r) : Fits H (incr * c * T) := by
  unfold staticChunkedUnsigned at h
  simp only [Option.bind_eq_bind, bind_signed_eq_some] at h
  exact h.2.1

/-! ## The flag -/

/-- The distance, where it does not go around and where it does. -/
theorem flagDistance_eq {span : Int} (hspan : 0 < span) (hupper : 0 ≤ upper ∧ upper < 2 * H)
    (hlower : 0 ≤ lower) (hin : lower + t * span < 2 * H) :
    flagDistance H lower upper span t =
      if lower + t * span ≤ upper - upper % span then upper - upper % span - (lower + t * span)
      else 2 * H + (upper - upper % span - (lower + t * span)) := by
  have hdiv := Int.mul_ediv_add_emod upper span
  have hquot : 0 ≤ span * (upper / span) := Int.mul_nonneg hspan.le (Int.ediv_nonneg hupper.1 hspan.le)
  have hrem := Int.emod_nonneg upper hspan.ne'
  have hstep : 0 ≤ (t : Int) * span := Int.mul_nonneg (Int.natCast_nonneg t) hspan.le
  unfold flagDistance
  split
  · exact toUnsigned_of_range (by omega) (by omega)
  · rw [toUnsigned_of_lt (by omega) (by omega)]
    exact add_comm _ _

/-- With the lower bound a multiple of the span, the flag is right up to the last chunk. -/
theorem flag_of_dvd {span : Int} {q : Nat} (hspan : 0 < span) (hupper : 0 ≤ upper ∧ upper < 2 * H)
    (hlower : 0 ≤ lower) (hin : ∀ t, t < T → lower + t * span < 2 * H)
    (hlast : upper - upper % span = lower + span * q) :
    (∀ t, t < T → (span * T ∣ flagDistance H lower upper span t ↔ t = q % T)) ↔
      ∀ e : Nat, 0 < e → q + e < T → ¬ span * T ∣ 2 * H - span * e := by
  have hdistance : ∀ t, t < T → flagDistance H lower upper span t =
      if t ≤ q then span * q - span * t else 2 * H + (span * q - span * t) := by
    intro t ht
    have horder : lower + t * span ≤ upper - upper % span ↔ t ≤ q := by
      rw [hlast, add_le_add_iff_left, mul_comm (t : Int), mul_le_mul_iff_right₀ hspan, Nat.cast_le]
    have hdiff : upper - upper % span - (lower + t * span) = span * q - span * t := by
      rw [hlast]
      ring
    rw [flagDistance_eq hspan hupper hlower (hin t ht), hdiff]
    simp only [horder]
  constructor
  · intro h e he hq hdvd
    have hflag := h (q + e) hq
    rw [hdistance _ hq, if_neg (by omega)] at hflag
    have hdiff : 2 * (H : Int) + (span * q - span * (q + e : Nat)) = 2 * H - span * e := by
      push_cast
      ring
    rw [hdiff] at hflag
    have howner := hflag.mp hdvd
    rw [Nat.mod_eq_of_lt (by omega)] at howner
    omega
  · intro h t ht
    rw [hdistance t ht]
    split
    · exact dvd_turn_iff hspan ht
    · next hlt =>
      have hbehind := h (t - q) (by omega) (by omega)
      have hdiff : 2 * (H : Int) + (span * q - span * t) = 2 * H - span * (t - q : Nat) := by
        rw [Nat.cast_sub (by omega)]
        ring
      have hother : t ≠ q % T := by
        rw [Nat.mod_eq_of_lt (by omega)]
        omega
      rw [hdiff]
      exact iff_of_false hbehind hother

/-- The last chunk and `beginLastChunk`: they differ by the remainder of the lower bound. -/
theorem lastChunk_ahead {span : Int} {q : Nat} (hspan : 0 < span)
    (hlast : lower + span * q = upper - (upper - lower) % span) :
    lower + span * q - (upper - upper % span) =
      if lower % span ≤ upper % span then lower % span else lower % span - span := by
  have hremL : 0 ≤ lower % span ∧ lower % span < span :=
    ⟨Int.emod_nonneg lower hspan.ne', Int.emod_lt_of_pos lower hspan⟩
  have hremU : 0 ≤ upper % span ∧ upper % span < span :=
    ⟨Int.emod_nonneg upper hspan.ne', Int.emod_lt_of_pos upper hspan⟩
  have hrem : (upper - lower) % span =
      if lower % span ≤ upper % span then upper % span - lower % span
      else upper % span - lower % span + span := by
    rw [Int.sub_emod]
    split
    · exact Int.emod_eq_of_lt (by omega) (by omega)
    · rw [← Int.add_emod_right]
      exact Int.emod_eq_of_lt (by omega) (by omega)
  rw [hlast, hrem]
  split <;> omega

/-- An owner that begins behind the chunk before the last one begins with the last chunk. -/
theorem lastChunk_lt_of_behind {span x : Int} {q : Nat} (hspan : 0 < span) (hT : 0 < T)
    (hbehind : x < lower + (q % T : Nat) * span) (hahead : lower + span * q < x + span) : q < T := by
  by_contra hge
  have hround : q % T + T ≤ q := by
    have hdiv := Nat.mod_add_div q T
    have hpos : T * 1 ≤ T * (q / T) := Nat.mul_le_mul_left T (Nat.div_pos (by omega) hT)
    omega
  have hmul : span * ((q % T : Nat) + 1 : Int) ≤ span * q :=
    Int.mul_le_mul_of_nonneg_left (by omega) hspan.le
  rw [Int.mul_add, Int.mul_one, mul_comm span] at hmul
  omega

/-- Without it, no distance that does not go around is one of chunks. -/
theorem flag_of_not_dvd {span : Int} {q : Nat} (hspan : 0 < span) (hupper : 0 ≤ upper ∧ upper < 2 * H)
    (hlower : 0 ≤ lower) (hin : ∀ t, t < T → lower + t * span < 2 * H) (hT : 0 < T) (hndvd : ¬ span ∣ lower)
    (hlast : lower + span * q = upper - (upper - lower) % span) :
    (∀ t, t < T → (span * T ∣ flagDistance H lower upper span t ↔ t = q % T)) ↔
      lower % span ≤ upper % span ∧ q < T ∧ span * T ∣ 2 * H - lower % span := by
  have hrem : 0 ≤ lower % span ∧ lower % span < span :=
    ⟨Int.emod_nonneg lower hspan.ne', Int.emod_lt_of_pos lower hspan⟩
  have hne : lower % span ≠ 0 := fun h0 => hndvd (Int.dvd_of_emod_eq_zero h0)
  have hnot : ∀ t : Nat, ¬ span ∣ upper - upper % span - (lower + t * span) := by
    intro t hdvd
    have hsum := (dvd_sub_right Int.dvd_self_sub_emod).mp hdvd
    exact hndvd ((dvd_add_left (Dvd.intro_left _ rfl)).mp hsum)
  have hahead := lastChunk_ahead hspan hlast
  constructor
  · intro h
    have ht : q % T < T := Nat.mod_lt q hT
    have hflag := (h _ ht).mpr rfl
    rw [flagDistance_eq hspan hupper hlower (hin _ ht)] at hflag
    split at hflag
    · exact absurd (dvd_trans (Dvd.intro _ rfl) hflag) (hnot _)
    · next hbehind =>
      -- the owner begins behind `beginLastChunk`, so with the last chunk
      have hq : q < T := by
        apply lastChunk_lt_of_behind hspan hT (Int.not_le.mp hbehind)
        split at hahead <;> omega
      rw [Nat.mod_eq_of_lt hq, mul_comm (q : Int)] at hbehind hflag
      split at hahead
      · next hle =>
        have hdiff : 2 * (H : Int) + (upper - upper % span - (lower + span * q)) = 2 * H - lower % span := by
          omega
        rw [hdiff] at hflag
        exact ⟨hle, hq, hflag⟩
      · omega
  · rintro ⟨hle, hq, hdvd⟩ t ht
    rw [if_pos hle] at hahead
    rw [flagDistance_eq hspan hupper hlower (hin t ht), Nat.mod_eq_of_lt hq]
    split
    · next hbegin =>
      have hother : t ≠ q := by
        rintro rfl
        rw [mul_comm (t : Int)] at hbegin
        omega
      exact iff_of_false (fun hflag => hnot t (dvd_trans (Dvd.intro _ rfl) hflag)) hother
    · have hdiff : 2 * (H : Int) + (upper - upper % span - (lower + t * span)) =
          2 * H - lower % span + (span * q - span * t) := by
        rw [mul_comm (t : Int)]
        omega
      rw [hdiff, dvd_add_right hdvd, dvd_turn_iff hspan ht, Nat.mod_eq_of_lt hq]

/-- **The flag of a loop with iterations.** -/
theorem flagSetUnsigned_iff (hincr : 0 < incr) (hc : 0 < c) (hT : 0 < T) (hupper : 0 ≤ upper ∧ upper < 2 * H)
    (hlower : 0 ≤ lower) (hle : lower ≤ upper) (hin : InRange H lower upper incr c T) :
    (∀ t, t < T → (incr * c * T ∣ flagDistance H lower upper (incr * c) t ↔
      t = lastChunk lower upper incr c % T)) ↔
        FlagSetUnsigned H lower upper (incr * c) (lastChunk lower upper incr c) T := by
  have hspan := span_pos hincr hc
  have hlast := lastChunk_begin hincr hc hle
  unfold FlagSetUnsigned
  split
  · next hdvd =>
    obtain ⟨a, rfl⟩ := hdvd
    rw [Int.sub_mul_emod_self_left] at hlast
    exact flag_of_dvd hspan hupper hlower (fun t ht => (hin t ht).1) (by omega)
  · next hndvd => exact flag_of_not_dvd hspan hupper hlower (fun t ht => (hin t ht).1) hT hndvd (by omega)

/-! ## The bounds -/

/-- A thread begins, or it has no values at all. -/
theorem no_runs_iff {r : Bounds} (hincr : 0 < incr) (hstride : 0 ≤ r.pstride) :
    (∀ k v, ¬ RunsIn upper incr r k v) ↔ upper < r.plower ∨ r.pupper < r.plower := by
  constructor
  · intro h
    by_contra hnot
    exact h 0 r.plower (runsIn_plower hincr (by omega) (by omega))
  · rintro h k v ⟨j, rfl, hle⟩
    rw [if_pos hincr] at hle
    have hround : 0 ≤ (k : Int) * r.pstride := Int.mul_nonneg (Int.natCast_nonneg k) hstride
    have hstep : 0 ≤ (j : Int) * incr := Int.mul_nonneg (Int.natCast_nonneg j) hincr.le
    omega

/-- A loop without iterations is partitioned if nobody runs anything or gets the flag. -/
theorem partition_of_empty (hincr : 0 < incr) (hlt : upper < lower) :
    ChunkPartition lower upper T incr rs ↔
      ∀ t, t < T → (∀ k v, ¬ RunsIn upper incr (rs t) k v) ∧ (rs t).plastiter = false := by
  have hnone : ∀ i : Nat, ¬ lower + i * incr ≤ upper := by
    intro i
    have hstep : 0 ≤ (i : Int) * incr := Int.mul_nonneg (Int.natCast_nonneg i) hincr.le
    omega
  constructor
  · intro hp t ht
    constructor
    · intro k v hrun
      obtain ⟨i, rfl, hle⟩ := hp.only t ht k v hrun
      exact hnone i hle
    · rw [Bool.eq_false_iff, ne_eq, hp.flag t ht]
      rintro ⟨i, hle, -⟩
      exact hnone i hle
  · intro h
    refine ⟨fun i hle => absurd hle (hnone i), fun t ht k v hrun => absurd hrun ((h t ht).1 k v), ?_⟩
    intro t ht
    rw [(h t ht).2]
    exact iff_of_false Bool.false_ne_true fun ⟨i, hle, _⟩ => hnone i hle

/-- Where a thread begins: beyond the type it goes around once. -/
theorem toUnsigned_begin (hspan : 0 < incr * c) (hstride : Fits H (incr * c * T))
    (hlower : 0 ≤ lower ∧ lower < 2 * H) (ht : t < T) :
    toUnsigned H (lower + t * (incr * c)) = if lower + t * (incr * c) < 2 * H then lower + t * (incr * c)
      else lower + t * (incr * c) - 2 * H := by
  have hround := turn_within hspan ht
  rw [mul_comm (t : Int)]
  unfold Fits at hstride
  split
  · exact toUnsigned_of_range (by omega) (by omega)
  · exact toUnsigned_of_ge (by omega) (by omega)

theorem dealt_unsignedChunk (hspan : 0 < incr * c) (hincr : incr ≤ incr * c) (hstride : Fits H (incr * c * T))
    (hlower : 0 ≤ lower ∧ lower < 2 * H) (hr : ∀ t, t < T → rs t = unsignedChunk H lower upper incr c T t)
    (hin : InRange H lower upper incr c T) : Dealt lower upper incr c T rs := by
  have hbegin : ∀ t, t < T → (rs t).plower = lower + t * (incr * c) := by
    intro t ht
    rw [hr t ht]
    exact (toUnsigned_begin hspan hstride hlower ht).trans (if_pos (hin t ht).1)
  refine ⟨hbegin, fun t ht => by rw [hr t ht]; rfl, fun t ht => ?_⟩
  rw [hbegin t ht]
  by_cases hle : lower + t * (incr * c) ≤ upper
  · left
    have hnonneg : 0 ≤ (t : Int) * (incr * c) := Int.mul_nonneg (Int.natCast_nonneg t) hspan.le
    have hend := (hin t ht).2 hle
    have hpupper : (rs t).pupper = toUnsigned H ((rs t).plower + incr * c - incr) := by
      rw [hr t ht]
      rfl
    rw [hpupper, hbegin t ht]
    exact toUnsigned_of_range (by omega) hend
  · exact Or.inr (by omega)

/-- In a loop with iterations, a thread that went around would run values below it. -/
theorem begin_of_partition (hspan : 0 < incr * c) (hincr : 0 < incr) (hle : incr ≤ incr * c)
    (hstride : Fits H (incr * c * T)) (hlower : 0 ≤ lower ∧ lower < 2 * H) (hsome : lower ≤ upper)
    (hr : ∀ t, t < T → rs t = unsignedChunk H lower upper incr c T t)
    (hp : ChunkPartition lower upper T incr rs) (ht : t < T) : lower + t * (incr * c) < 2 * H := by
  have hround := turn_within hspan ht
  rw [mul_comm (t : Int)]
  by_contra hover
  have hplower : (rs t).plower = lower + incr * c * t - 2 * H := by
    rw [hr t ht, mul_comm (incr * c)]
    rw [mul_comm (incr * c)] at hover
    exact (toUnsigned_begin hspan hstride hlower ht).trans (if_neg hover)
  unfold Fits at hstride
  have hpupper : (rs t).pupper = (rs t).plower + incr * c - incr := by
    have hsum : (rs t).pupper = toUnsigned H ((rs t).plower + incr * c - incr) := by
      rw [hr t ht]
      rfl
    rw [hsum, hplower]
    exact toUnsigned_of_range (by omega) (by omega)
  obtain ⟨i, hi, -⟩ := hp.only t ht 0 _ (runsIn_plower hincr (by omega) (by omega))
  have hstep : 0 ≤ (i : Int) * incr := Int.mul_nonneg (Int.natCast_nonneg i) hincr.le
  omega

/-- A thread whose first chunk ends beyond the type runs nothing, and its first iteration is left out. -/
theorem end_of_partition (hspan : 0 < incr * c) (hincr : 0 < incr) (hle : incr ≤ incr * c)
    (hstride : Fits H (incr * c * T)) (hlower : 0 ≤ lower ∧ lower < 2 * H)
    (hr : ∀ t, t < T → rs t = unsignedChunk H lower upper incr c T t)
    (hp : ChunkPartition lower upper T incr rs) (hin : ∀ t, t < T → lower + t * (incr * c) < 2 * H)
    (ht : t < T) (hupper : lower + t * (incr * c) ≤ upper) :
    lower + t * (incr * c) + incr * c - incr < 2 * H := by
  have hbegin : ∀ t', t' < T → (rs t').plower = lower + t' * (incr * c) := by
    intro t' ht'
    rw [hr t' ht']
    exact (toUnsigned_begin hspan hstride hlower ht').trans (if_pos (hin t' ht'))
  have hpupper : ∀ t', t' < T →
      (rs t').pupper = toUnsigned H (lower + t' * (incr * c) + incr * c - incr) := by
    intro t' ht'
    rw [← hbegin t' ht', hr t' ht']
    rfl
  have hvalue : lower + ((t * c : Nat) : Int) * incr = lower + t * (incr * c) := by
    push_cast
    ring
  obtain ⟨⟨t', k⟩, ⟨ht', hrun⟩, -⟩ := hp.once (t * c) (by rw [hvalue]; exact hupper)
  rw [hvalue] at hrun
  obtain ⟨j, hj, hend⟩ := hrun
  rw [if_pos hincr, le_min_iff] at hend
  dsimp only at hj hend ht'
  have hpstride : (rs t').pstride = incr * c * T := by
    rw [hr t' ht']
    rfl
  rw [hbegin t' ht', hpstride] at hj
  rw [hpupper t' ht', hpstride] at hend
  have hstep : 0 ≤ (j : Int) * incr := Int.mul_nonneg (Int.natCast_nonneg j) hincr.le
  have hround := turn_within hspan ht'
  have hchunk : incr * c * (t' + T * k : Nat) = t' * (incr * c) + k * (incr * c * T) := by
    push_cast
    ring
  have hlast := toUnsigned_le (H := H) (show 0 ≤ lower + t' * (incr * c) + incr * c - incr by
    rw [mul_comm (t' : Int)]
    omega)
  obtain ⟨rfl, rfl⟩ : t' = t ∧ k = 0 := by
    apply first_turn_of_le hspan ht
    · rw [hchunk, mul_comm _ (t : Int)]
      omega
    · rw [hchunk, mul_comm _ (t : Int)]
      omega
  by_contra hover
  have hlow := hin t' ht
  rw [mul_comm (t' : Int)] at *
  unfold Fits at hstride
  rw [toUnsigned_of_ge (by omega) (by omega)] at hend
  omega

/-- The calls have results exactly if the stride fits. -/
theorem chunkPartitions_unsigned_iff (hincr : 0 < incr) (hc : 0 < c) (hT : 0 < T) :
    ChunkPartitions lower upper T incr (fun t => staticChunkedUnsigned H T t lower upper incr c) ↔
      Fits H (incr * c * T) ∧ ChunkPartition lower upper T incr (unsignedChunk H lower upper incr c T) := by
  constructor
  · rintro ⟨rs, hcall, hp⟩
    have hstride := stride_of_chunkedUnsigned (hcall 0 hT)
    refine ⟨hstride, hp.congr fun t ht => ?_⟩
    exact Option.some.inj ((hcall t ht).symm.trans (chunkedUnsigned_eq hincr hc hstride ht))
  · rintro ⟨hstride, hp⟩
    exact ⟨_, fun t ht => chunkedUnsigned_eq hincr hc hstride ht, hp⟩

theorem plastiter_unsignedChunk (t : Nat) : (unsignedChunk H lower upper incr c T t).plastiter = true ↔
    incr * c * T ∣ flagDistance H lower upper (incr * c) t :=
  decide_eq_true_iff.trans Int.dvd_iff_emod_eq_zero.symm

/-- When a thread of a loop without iterations runs nothing. -/
theorem no_runs_unsignedChunk_iff (hspan : 0 < incr * c) (hincr : 0 < incr) (hle : incr ≤ incr * c)
    (hstride : Fits H (incr * c * T)) (hlower : 0 ≤ lower ∧ lower < 2 * H) (hlt : upper < lower)
    (ht : t < T) :
    (∀ k v, ¬ RunsIn upper incr (unsignedChunk H lower upper incr c T t) k v) ↔
      (2 * H ≤ lower + t * (incr * c) → upper < lower + t * (incr * c) - 2 * H) := by
  rw [no_runs_iff hincr (Int.mul_nonneg hspan.le (Int.natCast_nonneg T))]
  have hround := turn_within hspan ht
  rw [mul_comm (incr * c) (t : Int)] at hround
  have hplower := toUnsigned_begin hspan hstride hlower ht
  unfold Fits at hstride
  simp only [unsignedChunk, hplower]
  split
  · omega
  · have hpupper : toUnsigned H (lower + t * (incr * c) - 2 * H + incr * c - incr) =
        lower + t * (incr * c) - 2 * H + incr * c - incr := toUnsigned_of_range (by omega) (by omega)
    rw [hpupper]
    omega

/-- A loop with iterations is partitioned if the first chunks stay in the type and the flag is right. -/
theorem unsignedChunk_partition_iff (hincr : 0 < incr) (hc : 0 < c) (hT : 0 < T)
    (hlower : 0 ≤ lower ∧ lower < 2 * H) (hupper : 0 ≤ upper ∧ upper < 2 * H) (hstride : Fits H (incr * c * T))
    (hsome : lower ≤ upper) :
    ChunkPartition lower upper T incr (unsignedChunk H lower upper incr c T) ↔
      InRange H lower upper incr c T ∧
        FlagSetUnsigned H lower upper (incr * c) (lastChunk lower upper incr c) T := by
  have hspan := span_pos hincr hc
  have hle := incr_le_span hincr hc
  have hflag (hin : InRange H lower upper incr c T) :
      ChunkPartition lower upper T incr (unsignedChunk H lower upper incr c T) ↔
        FlagSetUnsigned H lower upper (incr * c) (lastChunk lower upper incr c) T := by
    rw [(dealt_unsignedChunk hspan hle hstride hlower (fun _ _ => rfl) hin).partition_iff hincr hc hT,
      ← flagSetUnsigned_iff hincr hc hT hupper hlower.1 hsome hin]
    simp only [plastiter_unsignedChunk, hsome, true_and]
  constructor
  · intro hp
    have hbegin := fun t (ht : t < T) =>
      begin_of_partition hspan hincr hle hstride hlower hsome (fun _ _ => rfl) hp ht
    have hin : InRange H lower upper incr c T := fun t ht =>
      ⟨hbegin t ht, end_of_partition hspan hincr hle hstride hlower (fun _ _ => rfl) hp hbegin ht⟩
    exact ⟨hin, (hflag hin).mp hp⟩
  · rintro ⟨hin, h⟩
    exact (hflag hin).mpr h

/-- **When the calls of a team partition a loop with unsigned bounds.** -/
theorem chunkedUnsigned_partitions_iff (hincr : 0 < incr) (hc : 0 < c) (hT : 0 < T)
    (hlower : 0 ≤ lower ∧ lower < 2 * H) (hupper : 0 ≤ upper ∧ upper < 2 * H) :
    ChunkPartitions lower upper T incr (fun t => staticChunkedUnsigned H T t lower upper incr c) ↔
      SplitsChunked H lower upper incr c T := by
  have hspan := span_pos hincr hc
  have hle := incr_le_span hincr hc
  rw [chunkPartitions_unsigned_iff hincr hc hT]
  by_cases hsome : lower ≤ upper
  · constructor
    · rintro ⟨hstride, hp⟩
      exact ⟨hstride, fun _ => (unsignedChunk_partition_iff hincr hc hT hlower hupper hstride hsome).mp hp,
        fun hlt => absurd hsome (by omega)⟩
    · rintro ⟨hstride, h, -⟩
      exact ⟨hstride, (unsignedChunk_partition_iff hincr hc hT hlower hupper hstride hsome).mpr (h hsome)⟩
  · have hlt : upper < lower := by omega
    rw [partition_of_empty hincr hlt]
    constructor
    · rintro ⟨hstride, h⟩
      refine ⟨hstride, fun hle' => absurd hle' hsome, fun _ t ht => ⟨?_, ?_⟩⟩
      · exact (no_runs_unsignedChunk_iff hspan hincr hle hstride hlower hlt ht).mp (h t ht).1
      · rw [← plastiter_unsignedChunk, (h t ht).2]
        exact Bool.false_ne_true
    · rintro ⟨hstride, -, h⟩
      refine ⟨hstride, fun t ht => ⟨?_, ?_⟩⟩
      · exact (no_runs_unsignedChunk_iff hspan hincr hle hstride hlower hlt ht).mpr (h hlt t ht).1
      · rw [Bool.eq_false_iff, ne_eq, plastiter_unsignedChunk]
        exact (h hlt t ht).2

/-- **Chunked static scheduling.**  Which loops the calls of a team partition. -/
theorem forStaticInitChunked_partitions_iff (hincr : 0 < incr) (hc : 0 < c) (hT : 0 < T) :
    (Fits half32 lower → Fits half32 upper →
      (ChunkPartitions lower upper T incr (fun t => forStaticInitChunked4 T t lower upper incr c) ↔
        ChunkFits half32 lower upper incr c T ∧ FlagSet lower upper (incr * c) T)) ∧
    (0 ≤ lower ∧ lower < 2 * half64 → 0 ≤ upper ∧ upper < 2 * half64 →
      (ChunkPartitions lower upper T incr (fun t => forStaticInitChunked8u T t lower upper incr c) ↔
        SplitsChunked half64 lower upper incr c T)) :=
  ⟨fun hlower hupper => chunkedSigned_partitions_iff hincr hc hT hlower hupper,
    fun hlower hupper => chunkedUnsigned_partitions_iff hincr hc hT hlower hupper⟩

/-- Ten iterations in chunks of two, for two threads. -/
theorem forStaticInitChunked_partitions_ten :
    ChunkPartitions 0 9 2 1 (fun t => forStaticInitChunked4 2 t 0 9 1 (2 : Nat)) ∧
    ChunkPartitions 0 9 2 1 (fun t => forStaticInitChunked8u 2 t 0 9 1 (2 : Nat)) := by
  obtain ⟨h4, h8u⟩ := @forStaticInitChunked_partitions_iff 2 2 0 9 1 (by decide) (by decide) (by decide)
  refine ⟨(h4 (by decide) (by decide)).mpr ⟨?_, ?_⟩, (h8u (by decide) (by decide)).mpr ?_⟩
  · exact ⟨by decide, by decide, by decide, by decide, by decide⟩
  · rw [FlagSet, if_pos (by decide)]
    decide
  · refine ⟨by decide, fun _ => ⟨by unfold InRange; decide, ?_⟩, fun hlt => absurd hlt (by decide)⟩
    rw [FlagSetUnsigned, if_pos (by decide)]
    intro e _ hlast
    have hchunk : lastChunk 0 9 1 2 = 4 := by decide
    omega

/-- Chunks of two from 1 to 4: `beginLastChunk` is 4, where no chunk begins, and nobody gets the flag. -/
theorem forStaticInitChunked_no_flag :
    ¬ ChunkPartitions 1 4 2 1 (fun t => forStaticInitChunked4 2 t 1 4 1 (2 : Nat)) ∧
    ¬ ChunkPartitions 1 4 2 1 (fun t => forStaticInitChunked8u 2 t 1 4 1 (2 : Nat)) := by
  constructor
  · intro hp
    obtain ⟨-, hflag⟩ := (chunkedSigned_partitions_iff (by decide) (by decide) (by decide) (by decide)
      (by decide)).mp hp
    rw [FlagSet, if_pos (by decide)] at hflag
    exact absurd hflag.1 (by decide)
  · intro hp
    have hsplits := (chunkedUnsigned_partitions_iff (by decide) (by decide) (by decide) (by decide)
      (by decide)).mp hp
    have hflag := (hsplits.some (by decide)).2
    rw [FlagSetUnsigned, if_neg (by decide)] at hflag
    exact absurd hflag.1 (by decide)

end Omp

end CachePool
