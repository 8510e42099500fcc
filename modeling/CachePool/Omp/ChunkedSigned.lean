import CachePool.Omp.StaticChunked

/-!
# Chunks with signed bounds

`beginLastChunk` is the upper bound less its remainder, so a multiple of the span of a chunk, while the chunks
begin at the lower bound; and the remainder of C has the sign of the upper bound.

* `ChunkFits` — nothing overflows.
* `FlagSet` — when the flag is right, without overflow.
* `beginLastChunk_iff` — when `beginLastChunk` is as far from the last chunk as some chunk of its owner.
* `chunkedSigned_partitions_iff` — the calls partition the loop exactly if both hold.
-/

set_option autoImplicit false

namespace CachePool

namespace Omp

open CInt Turns

variable {H c T t : Nat} {lower upper incr : Int} {r : Bounds}

/-- `beginLastChunk`. -/
def beginLastChunk (upper span : Int) : Int := upper - upper.tmod span

/-- No operation overflows in any call of the team. -/
structure ChunkFits (H : Nat) (lower upper incr : Int) (c T : Nat) : Prop where
  range : Fits H (upper - lower)
  count : Fits H ((upper - lower).tdiv incr + 1)
  stride : Fits H (incr * c * T)
  behind : Fits H (lower + incr * c * T)
  distance : ∀ t, t < T → Fits H (beginLastChunk upper (incr * c) - (lower + t * (incr * c)))

/-- The flag of a loop with chunks of `span`: the bounds are multiples of it, or the lower one is, and the
upper one not below zero, or there is no other thread.  In a loop without iterations, the lower bound is no
multiple. -/
def FlagSet (lower upper span : Int) (T : Nat) : Prop :=
  if lower ≤ upper then span ∣ lower ∧ (0 ≤ upper ∨ span ∣ upper ∨ T = 1) else ¬ span ∣ lower

/-- What thread `t` gets, if it begins with `plower`. -/
def signedChunk (upper incr : Int) (c T : Nat) (plower : Int) : Bounds where
  plower := plower
  pupper := plower + incr * c - incr
  plastiter := decide ((beginLastChunk upper (incr * c) - plower).tmod (incr * c * T) = 0)
  pstride := incr * c * T

/-- `*plower`. -/
def chunkBegin (H : Nat) (lower incr : Int) (c t : Nat) : Int := toSigned H (lower + incr * c * t)

theorem chunkedSigned_eq_some :
    staticChunkedSigned H T t lower upper incr c = some r ↔
      Fits H (upper - lower) ∧ Fits H ((upper - lower).tdiv incr) ∧ Fits H ((upper - lower).tdiv incr + 1) ∧
      Fits H (incr * c) ∧ Fits H (incr * c * T) ∧ Fits H (chunkBegin H lower incr c t + incr * c) ∧
      Fits H (chunkBegin H lower incr c t + incr * c - incr) ∧ Fits H (beginLastChunk upper (incr * c)) ∧
      Fits H (beginLastChunk upper (incr * c) - chunkBegin H lower incr c t) ∧
      r = signedChunk upper incr c T (chunkBegin H lower incr c t) := by
  unfold staticChunkedSigned
  simp only [Option.bind_eq_bind, bind_signed_eq_some, Option.some.injEq, eq_comm (b := r)]
  rfl

/-! ## The flag -/

theorem span_pos (hincr : 0 < incr) (hc : 0 < c) : 0 < incr * c := Int.mul_pos hincr (by exact_mod_cast hc)

theorem incr_le_span (hincr : 0 < incr) (hc : 0 < c) : incr ≤ incr * c :=
  le_mul_of_one_le_right hincr.le (by exact_mod_cast hc)

/-- The last chunk begins at the upper bound, less what lies behind it. -/
theorem lastChunk_begin (hincr : 0 < incr) (hc : 0 < c) (hle : lower ≤ upper) :
    incr * c * lastChunk lower upper incr c = upper - lower - (upper - lower) % (incr * c) := by
  have hpos := span_pos hincr hc
  have hnonneg : 0 ≤ (upper - lower) / (incr * c) := Int.ediv_nonneg (by omega) hpos.le
  have hdiv := Int.mul_ediv_add_emod (upper - lower) (incr * c)
  unfold lastChunk
  rw [Int.toNat_of_nonneg hnonneg]
  omega

/-- `beginLastChunk` and the last chunk, in a loop whose lower bound is a multiple of the span. -/
theorem beginLastChunk_sub {span a : Int} (hpos : 0 < span) :
    beginLastChunk upper span - span * a - (upper - span * a - (upper - span * a) % span) =
      if 0 ≤ upper ∨ span ∣ upper then 0 else span := by
  have htdiv := Int.mul_tdiv_add_tmod upper span
  have hdiv := Int.mul_ediv_add_emod upper span
  have hquot := @Int.tdiv_eq_ediv upper span
  rw [Int.sign_eq_one_of_pos hpos] at hquot
  unfold beginLastChunk
  rw [Int.sub_mul_emod_self_left]
  split
  · next h =>
    rw [if_pos h, Int.add_zero] at hquot
    rw [hquot] at htdiv
    omega
  · next h =>
    rw [if_neg h] at hquot
    rw [hquot, Int.mul_add, Int.mul_one] at htdiv
    omega

theorem beginLastChunk_iff (hincr : 0 < incr) (hc : 0 < c) (hT : 0 < T) (hle : lower ≤ upper) :
    incr * c * T ∣ beginLastChunk upper (incr * c) - lower - incr * c * lastChunk lower upper incr c ↔
      incr * c ∣ lower ∧ (0 ≤ upper ∨ incr * c ∣ upper ∨ T = 1) := by
  have hpos := span_pos hincr hc
  rw [lastChunk_begin hincr hc hle]
  generalize incr * c = span at *
  have hbegin : span ∣ beginLastChunk upper span := Int.dvd_self_sub_tmod
  constructor
  · intro hdvd
    have hspan : span ∣ lower := by
      have hrest : span ∣ upper - lower - (upper - lower) % span := Int.dvd_self_sub_emod
      have hall := dvd_add (dvd_trans (Dvd.intro _ rfl) hdvd) hrest
      rw [sub_add_cancel] at hall
      exact (dvd_sub_right hbegin).mp hall
    obtain ⟨a, rfl⟩ := hspan
    refine ⟨Dvd.intro _ rfl, ?_⟩
    rw [beginLastChunk_sub hpos] at hdvd
    split at hdvd
    · next h => exact h.imp_right Or.inl
    · obtain ⟨y, hy⟩ := hdvd
      have hone : (T : Int) ∣ 1 := ⟨y, by
        have hmul : span * 1 = span * (T * y) := by linarith
        exact Int.eq_of_mul_eq_mul_left hpos.ne' hmul⟩
      exact Or.inr (Or.inr (by exact_mod_cast Int.eq_one_of_dvd_one (by omega) hone))
  · rintro ⟨⟨a, rfl⟩, h⟩
    rw [beginLastChunk_sub hpos]
    split
    · exact dvd_zero _
    · next hneg =>
      have hone : T = 1 := (h.resolve_left fun h0 => hneg (Or.inl h0)).resolve_left fun h0 => hneg (Or.inr h0)
      rw [hone, Nat.cast_one, mul_one]

/-- When the flags of a team are right, without overflow. -/
theorem flagSet_iff (hincr : 0 < incr) (hc : 0 < c) (hT : 0 < T) :
    (∀ t, t < T → ((beginLastChunk upper (incr * c) - (lower + t * (incr * c))).tmod (incr * c * T) = 0 ↔
      lower ≤ upper ∧ t = lastChunk lower upper incr c % T)) ↔ FlagSet lower upper (incr * c) T := by
  have hpos := span_pos hincr hc
  have hmod : ∀ t : Nat,
      (beginLastChunk upper (incr * c) - (lower + t * (incr * c))).tmod (incr * c * T) = 0 ↔
        incr * c * T ∣ beginLastChunk upper (incr * c) - lower - incr * c * t := by
    intro t
    rw [← Int.dvd_iff_tmod_eq_zero, sub_sub, mul_comm (t : Int)]
  simp only [hmod]
  unfold FlagSet
  split
  · next hle =>
    simp only [hle, true_and]
    rw [turn_dvd_iff hpos hT, beginLastChunk_iff hincr hc hT hle]
  · next hlt =>
    simp only [hlt, false_and, iff_false]
    rw [no_turn_dvd_iff hpos hT]
    exact not_congr (dvd_sub_right Int.dvd_self_sub_tmod)

/-! ## The bounds -/

theorem chunkBegin_eq (hfits : Fits H (lower + incr * c * t)) :
    chunkBegin H lower incr c t = lower + t * (incr * c) := by
  rw [chunkBegin, toSigned_of_fits hfits, mul_comm (t : Int)]

/-- The first values of the chunks before the end of the last one do not overflow. -/
theorem ChunkFits.begin (h : ChunkFits H lower upper incr c T) (hlower : Fits H lower) (hspan : 0 < incr * c)
    (ht : t < T) : Fits H (lower + incr * c * t) ∧ Fits H (lower + incr * c * t + incr * c) := by
  have hround := turn_within hspan ht
  have hbehind := h.behind
  unfold Fits at *
  omega

/-- A thread whose first value overflowed would begin below the loop. -/
theorem chunkBegin_of_partition {rs : Nat → Bounds} (hp : ChunkPartition lower upper T incr rs) (ht : t < T)
    (hr : rs t = signedChunk upper incr c T (chunkBegin H lower incr c t)) (hincr : 0 < incr) (hc : 0 < c)
    (hlower : Fits H lower) (hrange : Fits H (upper - lower)) (hstride : Fits H (incr * c * T)) :
    Fits H (lower + incr * c * t) := by
  have hle := incr_le_span hincr hc
  have hround := turn_within (span_pos hincr hc) ht
  by_contra hover
  have hbegin : chunkBegin H lower incr c t = lower + incr * c * t - 2 * H := by
    unfold chunkBegin
    unfold Fits at *
    exact toSigned_of_ge (by omega) (by omega)
  have hplower : (rs t).plower = lower + incr * c * t - 2 * H := by
    rw [hr, ← hbegin]
    rfl
  have hpupper : (rs t).pupper = (rs t).plower + incr * c - incr := by
    rw [hr]
    rfl
  have hupper : (rs t).plower ≤ upper := by
    unfold Fits at *
    omega
  have hrun := runsIn_plower hincr (by omega) hupper
  obtain ⟨i, hi, -⟩ := hp.only t ht 0 _ hrun
  have hstep : 0 ≤ (i : Int) * incr := Int.mul_nonneg (Int.natCast_nonneg i) hincr.le
  unfold Fits at *
  omega

theorem dealt_signedChunk (H : Nat) {rs : Nat → Bounds}
    (hr : ∀ t, t < T → rs t = signedChunk upper incr c T (chunkBegin H lower incr c t))
    (hbegin : ∀ t, t < T → Fits H (lower + incr * c * t)) : Dealt lower upper incr c T rs := by
  refine ⟨fun t ht => ?_, fun t ht => ?_, fun t ht => Or.inl ?_⟩
  · rw [hr t ht]
    exact chunkBegin_eq (hbegin t ht)
  · rw [hr t ht]
    rfl
  · rw [hr t ht]
    rfl

/-- The flags of dealt bounds. -/
theorem signedChunk_partition_iff {rs : Nat → Bounds} (hincr : 0 < incr) (hc : 0 < c) (hT : 0 < T)
    (hr : ∀ t, t < T → rs t = signedChunk upper incr c T (chunkBegin H lower incr c t))
    (hbegin : ∀ t, t < T → Fits H (lower + incr * c * t)) :
    ChunkPartition lower upper T incr rs ↔ FlagSet lower upper (incr * c) T := by
  rw [(dealt_signedChunk H hr hbegin).partition_iff hincr hc hT, ← flagSet_iff hincr hc hT]
  refine forall_congr' fun t => forall_congr' fun ht => ?_
  rw [hr t ht, chunkBegin_eq (hbegin t ht)]
  exact iff_congr decide_eq_true_iff Iff.rfl

/-- The upper bound, rounded towards zero. -/
theorem fits_beginLastChunk {span : Int} (hspan : 0 < span) (hupper : Fits H upper) :
    Fits H (beginLastChunk upper span) := by
  have hdiv := Int.mul_tdiv_add_tmod upper span
  unfold beginLastChunk
  rcases Int.le_total 0 upper with h0 | h0
  · have hrem := Int.tmod_nonneg span h0
    have hprod := Int.mul_nonneg hspan.le (Int.tdiv_nonneg h0 hspan.le)
    unfold Fits at *
    omega
  · have hrem := Int.tmod_nonneg span (show 0 ≤ -upper by omega)
    have hquot := Int.tdiv_nonneg (show 0 ≤ -upper by omega) hspan.le
    rw [Int.neg_tmod] at hrem
    rw [Int.neg_tdiv] at hquot
    have hprod := Int.mul_nonneg hspan.le hquot
    rw [Int.mul_neg] at hprod
    unfold Fits at *
    omega

/-- The calls have results if nothing overflows. -/
theorem chunkedSigned_of_fits (h : ChunkFits H lower upper incr c T) (hincr : 0 < incr) (hc : 0 < c)
    (hlower : Fits H lower) (hupper : Fits H upper) (ht : t < T) :
    staticChunkedSigned H T t lower upper incr c =
      some (signedChunk upper incr c T (chunkBegin H lower incr c t)) := by
  have hspan := span_pos hincr hc
  have hle := incr_le_span hincr hc
  obtain ⟨hbegin, hend⟩ := h.begin hlower hspan ht
  have hstride : incr * c ≤ incr * c * T := le_mul_of_one_le_right hspan.le (by omega)
  have hcount := h.count
  have hrange := h.range
  have hquot : Fits H ((upper - lower).tdiv incr) := by
    have habs := Int.natAbs_tdiv_le_natAbs (upper - lower) incr
    unfold Fits at *
    omega
  have hrem := fits_beginLastChunk hspan hupper
  have hplower : chunkBegin H lower incr c t = lower + incr * c * t := toSigned_of_fits hbegin
  have hdistance := h.distance t ht
  rw [mul_comm (t : Int)] at hdistance
  have hstrideFits := h.stride
  apply chunkedSigned_eq_some.mpr
  rw [hplower]
  refine ⟨hrange, hquot, hcount, ?_, hstrideFits, hend, ?_, hrem, hdistance, rfl⟩
  · unfold Fits at *
    omega
  · unfold Fits at *
    omega

/-- **When the calls of a team partition a loop with signed bounds.** -/
theorem chunkedSigned_partitions_iff (hincr : 0 < incr) (hc : 0 < c) (hT : 0 < T)
    (hlower : Fits H lower) (hupper : Fits H upper) :
    ChunkPartitions lower upper T incr (fun t => staticChunkedSigned H T t lower upper incr c) ↔
      ChunkFits H lower upper incr c T ∧ FlagSet lower upper (incr * c) T := by
  have hspan := span_pos hincr hc
  constructor
  · rintro ⟨rs, hcall, hp⟩
    have hsome := fun t ht => chunkedSigned_eq_some.mp (hcall t ht)
    have hr : ∀ t, t < T → rs t = signedChunk upper incr c T (chunkBegin H lower incr c t) :=
      fun t ht => (hsome t ht).2.2.2.2.2.2.2.2.2
    obtain ⟨hrange, -, hcount, -, hstride, -⟩ := hsome 0 hT
    have hbegin : ∀ t, t < T → Fits H (lower + incr * c * t) := fun t ht =>
      chunkBegin_of_partition hp ht (hr t ht) hincr hc hlower hrange hstride
    refine ⟨⟨hrange, hcount, hstride, ?_, ?_⟩, (signedChunk_partition_iff hincr hc hT hr hbegin).mp hp⟩
    · have hlast : T - 1 < T := by omega
      obtain ⟨-, -, -, -, -, hend, -⟩ := hsome (T - 1) hlast
      rw [show chunkBegin H lower incr c (T - 1) = _ from toSigned_of_fits (hbegin _ hlast),
        Nat.cast_pred hT] at hend
      have hsum : lower + incr * c * T = lower + incr * c * ((T : Int) - 1) + incr * c := by ring
      rwa [hsum]
    · intro t ht
      rw [← chunkBegin_eq (hbegin t ht)]
      exact (hsome t ht).2.2.2.2.2.2.2.2.1
  · rintro ⟨hfits, hflag⟩
    refine ⟨fun t => signedChunk upper incr c T (chunkBegin H lower incr c t),
      fun t ht => chunkedSigned_of_fits hfits hincr hc hlower hupper ht, ?_⟩
    exact (signedChunk_partition_iff hincr hc hT (fun _ _ => rfl)
      fun t ht => (hfits.begin hlower hspan ht).1).mpr hflag

end Omp

end CachePool
