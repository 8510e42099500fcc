import CachePool.Lib.Turns
import CachePool.Omp.StaticInit

/-!
# Static scheduling in chunks (`omp/kmp.c`)

The `kmp_sch_static_chunked` case of `__kmpc_for_static_init_4` and `_8u`.  A thread gets the bounds of its
first chunk and the distance to the next one; it goes on until a chunk begins behind the upper bound, and its
last one ends there.

* `staticChunkedSigned`, `staticChunkedUnsigned` — the functions, for a type of any width.
* `RunsIn` — the values of one chunk of a thread, clipped to the upper bound.
* `ChunkPartition` — every iteration is run once, nothing else is, and the flag is set where the last one is.
* `Dealt` — the bounds that deal the chunks out in turn; a thread that would begin behind the upper bound may
  end anywhere.
* `Dealt.partition_iff` — with these only the flag is left to be right.
-/

set_option autoImplicit false

namespace CachePool

namespace Omp

open CInt Turns

/-- `kmp_sch_static_chunked` where the bounds are signed. -/
def staticChunkedSigned (H nbThreads threadNum : Nat) (lower upper incr chunk : Int) : Option Bounds := do
  let range ← signed H (upper - lower)
  let quot ← signed H (range.tdiv incr)
  let _loopSize := toUnsigned H (← signed H (quot + 1))
  let span ← signed H (incr * chunk)
  let pstride ← signed H (span * nbThreads)
  let plower := toSigned H (lower + span * threadNum)
  let behind ← signed H (plower + span)
  let pupper ← signed H (behind - incr)
  let beginLastChunk ← signed H (upper - upper.tmod span)
  let distance ← signed H (beginLastChunk - plower)
  some ⟨plower, pupper, decide (distance.tmod pstride = 0), pstride⟩

/-- `kmp_sch_static_chunked` where the bounds are unsigned, and with them `beginLastChunk - *plower`. -/
def staticChunkedUnsigned (H nbThreads threadNum : Nat) (lower upper incr chunk : Int) : Option Bounds := do
  let span ← signed H (incr * chunk)
  let pstride ← signed H (span * nbThreads)
  let offset ← signed H (span * threadNum)
  let plower := toUnsigned H (lower + offset)
  let pupper := toUnsigned H (plower + span - incr)
  let beginLastChunk := toSigned H (upper - upper % toUnsigned H span)
  some ⟨plower, pupper, decide (toUnsigned H (beginLastChunk - plower) % toUnsigned H pstride = 0), pstride⟩

/-- The chunked case of `__kmpc_for_static_init_4`. -/
def forStaticInitChunked4 : Nat → Nat → Int → Int → Int → Int → Option Bounds := staticChunkedSigned half32

/-- The chunked case of `__kmpc_for_static_init_8u`. -/
def forStaticInitChunked8u : Nat → Nat → Int → Int → Int → Int → Option Bounds := staticChunkedUnsigned half64

/-! ## What the bounds are for -/

/-- The `k`-th chunk of a thread with bounds `r`, clipped to the upper bound of the loop, comes to `v`. -/
def RunsIn (upper incr : Int) (r : Bounds) (k : Nat) (v : Int) : Prop :=
  Visits incr (r.plower + k * r.pstride) (min (r.pupper + k * r.pstride) upper) v

/-- The threads of a team, with bounds `r`, run the iterations from `lower` to `upper` once each, in one chunk
of one thread, and nothing else, and that thread and no other has the flag that has the last one. -/
structure ChunkPartition (lower upper : Int) (T : Nat) (incr : Int) (r : Nat → Bounds) : Prop where
  once : ∀ i : Nat, lower + i * incr ≤ upper →
    ∃! p : Nat × Nat, p.1 < T ∧ RunsIn upper incr (r p.1) p.2 (lower + i * incr)
  only : ∀ t, t < T → ∀ k v, RunsIn upper incr (r t) k v → ∃ i : Nat, v = lower + i * incr ∧ v ≤ upper
  flag : ∀ t, t < T → ((r t).plastiter = true ↔ ∃ i : Nat, lower + i * incr ≤ upper ∧
    upper < lower + (i + 1) * incr ∧ ∃ k, RunsIn upper incr (r t) k (lower + i * incr))

/-- Every thread gets its bounds from `call`, and they partition the loop. -/
def ChunkPartitions (lower upper : Int) (T : Nat) (incr : Int) (call : Nat → Option Bounds) : Prop :=
  ∃ r : Nat → Bounds, (∀ t, t < T → call t = some (r t)) ∧ ChunkPartition lower upper T incr r

theorem ChunkPartition.congr {lower upper incr : Int} {T : Nat} {r r' : Nat → Bounds}
    (h : ChunkPartition lower upper T incr r) (heq : ∀ t, t < T → r t = r' t) :
    ChunkPartition lower upper T incr r' := by
  refine ⟨?_, ?_, ?_⟩
  · intro i hi
    obtain ⟨p, ⟨hp, hrun⟩, huniq⟩ := h.once i hi
    refine ⟨p, ⟨hp, by rwa [← heq p.1 hp]⟩, ?_⟩
    rintro q ⟨hq, hrun'⟩
    exact huniq q ⟨hq, by rwa [heq q.1 hq]⟩
  · intro t ht k v hrun
    exact h.only t ht k v (by rwa [heq t ht])
  · intro t ht
    rw [← heq t ht]
    exact h.flag t ht

/-! ## Chunks in turn -/

/-- The number of the chunk that holds the last iteration. -/
def lastChunk (lower upper incr : Int) (c : Nat) : Nat := ((upper - lower) / (incr * c)).toNat

/-- Thread `t` begins with chunk `t`, and goes on by `T` chunks. -/
structure Dealt (lower upper incr : Int) (c T : Nat) (r : Nat → Bounds) : Prop where
  plower : ∀ t, t < T → (r t).plower = lower + t * (incr * c)
  pstride : ∀ t, t < T → (r t).pstride = incr * c * T
  pupper : ∀ t, t < T → (r t).pupper = (r t).plower + incr * c - incr ∨ upper < (r t).plower

variable {lower upper incr lb ub v : Int} {c T t k : Nat} {r : Nat → Bounds}

/-- A first chunk that is not empty has its first value. -/
theorem runsIn_plower {b : Bounds} (hincr : 0 < incr) (hpupper : b.plower ≤ b.pupper)
    (hupper : b.plower ≤ upper) : RunsIn upper incr b 0 b.plower := by
  refine ⟨0, by simp, ?_⟩
  rw [if_pos hincr, Nat.cast_zero, Int.zero_mul, Int.add_zero]
  exact le_min hpupper hupper

theorem visits_min (hincr : 0 < incr) :
    Visits incr lb (min ub upper) v ↔ Visits incr lb ub v ∧ v ≤ upper := by
  unfold Visits
  simp only [if_pos hincr, le_min_iff]
  constructor
  · rintro ⟨j, hv, hub, hupper⟩
    exact ⟨⟨j, hv, hub⟩, hupper⟩
  · rintro ⟨⟨j, hv, hub⟩, hupper⟩
    exact ⟨j, hv, hub, hupper⟩

/-- **A chunk of a thread.** -/
theorem Dealt.runsIn_iff (h : Dealt lower upper incr c T r) (hincr : 0 < incr) (ht : t < T) :
    RunsIn upper incr (r t) k v ↔ ∃ i : Nat, InTurn c T t k i ∧ v = lower + i * incr ∧ v ≤ upper := by
  have hbegin : (r t).plower + k * (r t).pstride = lower + ((t + T * k) * c : Nat) * incr := by
    rw [h.plower t ht, h.pstride t ht]
    push_cast
    ring
  unfold RunsIn
  rw [visits_min hincr, hbegin]
  rcases h.pupper t ht with hupper | hbehind
  · have hend : (r t).pupper + k * (r t).pstride =
        lower + ((((t + T * k) * c : Nat) : Int) + c - 1) * incr := by
      rw [hupper, add_sub_assoc, add_right_comm, hbegin]
      ring
    rw [hend, visits_stretch hincr.ne' lower]
    constructor
    · rintro ⟨⟨i, hlo, hhi, hv⟩, hle⟩
      exact ⟨i, ⟨hlo, hhi⟩, hv, hle⟩
    · rintro ⟨i, ⟨hlo, hhi⟩, hv, hle⟩
      exact ⟨⟨i, hlo, hhi, hv⟩, hle⟩
  · -- the thread begins behind the upper bound, and so does each of its values
    have hfirst : (r t).plower ≤ lower + ((t + T * k) * c : Nat) * incr := by
      rw [h.plower t ht]
      have hmul : (0 : Int) ≤ T * k * (incr * c) := by positivity
      push_cast
      linarith
    constructor
    · rintro ⟨⟨j, rfl, -⟩, hle⟩
      have hstep : 0 ≤ (j : Int) * incr := by positivity
      omega
    · rintro ⟨i, ⟨hlo, -⟩, rfl, hle⟩
      have hstep : (((t + T * k) * c : Nat) : Int) * incr ≤ i * incr :=
        Int.mul_le_mul_of_nonneg_right (by exact_mod_cast hlo) hincr.le
      omega

theorem Dealt.once (h : Dealt lower upper incr c T r) (hincr : 0 < incr) (hc : 0 < c) (hT : 0 < T) (i : Nat)
    (hi : lower + i * incr ≤ upper) :
    ∃! p : Nat × Nat, p.1 < T ∧ RunsIn upper incr (r p.1) p.2 (lower + i * incr) := by
  have hturn : ∀ p : Nat × Nat, p.1 < T →
      (RunsIn upper incr (r p.1) p.2 (lower + i * incr) ↔ InTurn c T p.1 p.2 i) := by
    intro p hp
    rw [h.runsIn_iff hincr hp]
    constructor
    · rintro ⟨i', hin, heq, -⟩
      have hmul : (i : Int) * incr = i' * incr := by omega
      have hii : i = i' := by exact_mod_cast Int.eq_of_mul_eq_mul_right hincr.ne' hmul
      rwa [hii]
    · exact fun hin => ⟨i, hin, rfl, hi⟩
  obtain ⟨p, ⟨hp, hin⟩, huniq⟩ := existsUnique_turn hc hT i
  refine ⟨p, ⟨hp, (hturn p hp).mpr hin⟩, ?_⟩
  rintro q ⟨hq, hrun⟩
  exact huniq q ⟨hq, (hturn q hq).mp hrun⟩

theorem Dealt.only (h : Dealt lower upper incr c T r) (hincr : 0 < incr) (ht : t < T)
    (hrun : RunsIn upper incr (r t) k v) : ∃ i : Nat, v = lower + i * incr ∧ v ≤ upper := by
  obtain ⟨i, -, hv, hle⟩ := (h.runsIn_iff hincr ht).mp hrun
  exact ⟨i, hv, hle⟩

/-- The index of the last iteration, and its chunk. -/
theorem last_index (hincr : 0 < incr) {i : Nat} (hi : lower + i * incr ≤ upper)
    (hnext : upper < lower + (i + 1) * incr) : i / c = lastChunk lower upper incr c := by
  have hquot : (upper - lower) / incr = i := by
    rw [Int.ediv_eq_iff_of_pos hincr]
    constructor <;> linarith
  unfold lastChunk
  rw [← Int.ediv_ediv_of_nonneg hincr.le, hquot]
  rfl

/-- **Who has the last iteration.** -/
theorem Dealt.last_iff (h : Dealt lower upper incr c T r) (hincr : 0 < incr) (hc : 0 < c) (ht : t < T) :
    (∃ i : Nat, lower + i * incr ≤ upper ∧ upper < lower + (i + 1) * incr ∧
      ∃ k, RunsIn upper incr (r t) k (lower + i * incr)) ↔
        lower ≤ upper ∧ t = lastChunk lower upper incr c % T := by
  constructor
  · rintro ⟨i, hi, hnext, k, hrun⟩
    obtain ⟨i', hin, heq, -⟩ := (h.runsIn_iff hincr ht).mp hrun
    have hmul : (i : Int) * incr = i' * incr := by omega
    obtain rfl : i = i' := by exact_mod_cast Int.eq_of_mul_eq_mul_right hincr.ne' hmul
    have hstep : 0 ≤ (i : Int) * incr := by positivity
    refine ⟨by omega, ?_⟩
    rw [← last_index hincr hi hnext]
    exact ((inTurn_iff hc ht).mp hin).1
  · rintro ⟨hle, hturn⟩
    have hnonneg : 0 ≤ (upper - lower) / incr := Int.ediv_nonneg (by omega) hincr.le
    obtain ⟨i, hi⟩ := Int.eq_ofNat_of_zero_le hnonneg
    obtain ⟨hlo, hhi⟩ := (Int.ediv_eq_iff_of_pos hincr).mp hi
    have hi₁ : lower + i * incr ≤ upper := by linarith
    have hi₂ : upper < lower + (i + 1) * incr := by linarith
    refine ⟨i, hi₁, hi₂, i / c / T, (h.runsIn_iff hincr ht).mpr ⟨i, ?_, rfl, hi₁⟩⟩
    rw [← last_index hincr hi₁ hi₂] at hturn
    exact (inTurn_iff hc ht).mpr ⟨hturn, rfl⟩

/-- **With chunks in turn, only the flag is left to be right.** -/
theorem Dealt.partition_iff (h : Dealt lower upper incr c T r) (hincr : 0 < incr) (hc : 0 < c) (hT : 0 < T) :
    ChunkPartition lower upper T incr r ↔
      ∀ t, t < T → ((r t).plastiter = true ↔ lower ≤ upper ∧ t = lastChunk lower upper incr c % T) := by
  constructor
  · intro hp t ht
    rw [hp.flag t ht, h.last_iff hincr hc ht]
  · intro hflag
    refine ⟨fun i hi => h.once hincr hc hT i hi, fun t ht k v hrun => h.only hincr ht hrun, ?_⟩
    intro t ht
    rw [hflag t ht, h.last_iff hincr hc ht]

end Omp

end CachePool
