import CachePool.Lib.CInt
import CachePool.Lib.EvenSplit
import CachePool.Omp.Dispatch

/-!
# Static scheduling of loops (`omp/kmp.c`)

The `kmp_sch_static` case of `__kmpc_for_static_init_4`, `_4u` and `_8u`: each thread of the team calls it
with the bounds and the increment of the whole loop, and gets its own bounds back.  The upper bound is the
last value of the loop, or, for a loop without iterations, the value before the first.  Signed overflow is
undefined in C, so a call that overflows has no result.

* `forStaticInit4`, `forStaticInit4u`, `forStaticInit8u` — the functions.
* `Visits` — the values a thread runs through with the bounds it got.
* `Partitions` — every iteration is run once, nothing else is, and the flag is set where the last one is.
* `partition_of_bounds` — bounds that do it.
-/

set_option autoImplicit false

namespace CachePool

namespace Omp

open CInt

/-- What a thread gets: `*plower`, `*pupper`, `*plastiter` and `*pstride`. -/
structure Bounds where
  plower : Int
  pupper : Int
  plastiter : Bool
  pstride : Int
  deriving DecidableEq, Repr

/-- `kmp_int32` has the values from `-half32` on. -/
def half32 : Nat := 2 ^ 31

/-- `kmp_int64` has the values from `-half64` on. -/
def half64 : Nat := 2 ^ 63

/-- `kmp_sch_static` where the bounds are signed, of the type with values from `-H` on.  `threadNum` is
unsigned, and with it the sum for `*plower`. -/
def staticInitSigned (H nbThreads threadNum : Nat) (lower upper incr : Int) : Option Bounds := do
  let range ← signed H (upper - lower)
  let quot ← signed H (range.tdiv incr)
  let loopSize := toUnsigned H (← signed H (quot + 1))
  let chunk := toSigned H (loopSize / nbThreads)
  let leftOver := toSigned H (loopSize - (← signed H (chunk * nbThreads)))
  let chunk ← if threadNum < leftOver then signed H (chunk + 1) else some chunk
  let plower :=
    if threadNum < leftOver then toSigned H (lower + threadNum * chunk * incr)
    else toSigned H (lower + threadNum * chunk * incr + leftOver)
  let span ← signed H (chunk * incr)
  let behind ← signed H (plower + span)
  let pupper ← signed H (behind - incr)
  some ⟨plower, pupper, decide (pupper = upper) && decide (plower ≤ upper), toSigned H loopSize⟩

/-- `kmp_sch_static` where the bounds and the trip count are unsigned and the rest is signed. -/
def staticInitUnsigned (H nbThreads threadNum : Nat) (lower upper incr : Int) : Option Bounds := do
  let loopSize := toUnsigned H (toUnsigned H (upper - lower) / toUnsigned H incr + 1)
  let chunk := toSigned H (loopSize / nbThreads)
  let leftOver := toSigned H (loopSize - (← signed H (chunk * nbThreads)))
  let chunk ← if threadNum < leftOver then signed H (chunk + 1) else some chunk
  let offset ← signed H ((← signed H (threadNum * chunk)) * incr)
  let plower :=
    if threadNum < leftOver then toUnsigned H (lower + offset)
    else toUnsigned H (lower + offset + leftOver)
  let span ← signed H (chunk * incr)
  let pupper := toUnsigned H (plower + span - incr)
  some ⟨plower, pupper, decide (pupper = upper) && decide (plower ≤ upper), toSigned H loopSize⟩

/-- `__kmpc_for_static_init_4`. -/
def forStaticInit4 : Nat → Nat → Int → Int → Int → Option Bounds := staticInitSigned half32

/-- `__kmpc_for_static_init_4u`. -/
def forStaticInit4u (nbThreads threadNum : Nat) (lower upper incr : Int) : Option Bounds :=
  (forStaticInit4 nbThreads threadNum (toSigned half32 lower) (toSigned half32 upper) incr).map fun r =>
    { r with plower := toUnsigned half32 r.plower, pupper := toUnsigned half32 r.pupper }

/-- `__kmpc_for_static_init_8u`. -/
def forStaticInit8u : Nat → Nat → Int → Int → Int → Option Bounds := staticInitUnsigned half64

/-! ## What the bounds are for -/

/-- A loop with increment `incr` from `lb` to `ub` comes to `v`. -/
def Visits (incr lb ub v : Int) : Prop :=
  ∃ j : Nat, v = lb + j * incr ∧ if 0 < incr then v ≤ ub else ub ≤ v

/-- It does not begin. -/
def Empty (incr lb ub : Int) : Prop := if 0 < incr then ub < lb else lb < ub

instance (incr lb ub : Int) : Decidable (Empty incr lb ub) := by
  unfold Empty
  infer_instance

/-- The threads of a team, with bounds `r`, run the `n` iterations from `lower` on once each and nothing else,
and those and only those that have the last one have the flag. -/
structure Partition (lower : Int) (n T : Nat) (incr : Int) (r : Nat → Bounds) : Prop where
  once : ∀ k : Nat, k < n → ∃! t, t < T ∧ Visits incr (r t).plower (r t).pupper (lower + k * incr)
  only : ∀ t, t < T → ∀ v, Visits incr (r t).plower (r t).pupper v → ∃ k : Nat, k < n ∧ v = lower + k * incr
  flag : ∀ t, t < T → ((r t).plastiter = true ↔
    0 < n ∧ Visits incr (r t).plower (r t).pupper (lower + (n - 1) * incr))

/-- Every thread gets its bounds from `call`, and they partition the loop. -/
def Partitions (lower : Int) (n T : Nat) (incr : Int) (call : Nat → Option Bounds) : Prop :=
  ∃ r : Nat → Bounds, (∀ t, t < T → call t = some (r t)) ∧ Partition lower n T incr r

variable {incr lb ub v : Int}

theorem not_visits_of_empty (h : Empty incr lb ub) : ¬ Visits incr lb ub v := by
  rintro ⟨j, rfl, hv⟩
  unfold Empty at h
  split at h
  · next hpos =>
    rw [if_pos hpos] at hv
    have hstep : 0 ≤ (j : Int) * incr := Int.mul_nonneg (Int.natCast_nonneg j) hpos.le
    omega
  · next hneg =>
    rw [if_neg hneg] at hv
    have hstep : (j : Int) * incr ≤ 0 :=
      Int.mul_nonpos_of_nonneg_of_nonpos (Int.natCast_nonneg j) (Int.not_lt.mp hneg)
    omega

/-- A loop that begins comes to its first value. -/
theorem visits_lower (h : ¬ Empty incr lb ub) : Visits incr lb ub lb := by
  refine ⟨0, by simp, ?_⟩
  unfold Empty at h
  split at h <;> split <;> omega

/-- The bounds of a stretch of iterations. -/
theorem visits_stretch (hincr : incr ≠ 0) (lower : Int) (a b : Nat) :
    Visits incr (lower + a * incr) (lower + (a + b - 1) * incr) v ↔
      ∃ k : Nat, a ≤ k ∧ k < a + b ∧ v = lower + k * incr := by
  have horder : ∀ j : Nat, (if 0 < incr then lower + a * incr + j * incr ≤ lower + (a + b - 1) * incr
      else lower + (a + b - 1) * incr ≤ lower + a * incr + j * incr) ↔ j < b := by
    intro j
    have hdiff : lower + (a + b - 1) * incr - (lower + a * incr + j * incr) =
        ((b : Int) - 1 - j) * incr := by ring
    split
    · next hpos =>
      rw [← Int.sub_nonneg, hdiff]
      constructor
      · intro hle
        have := nonneg_of_mul_nonneg_left hle hpos
        omega
      · intro hlt
        exact Int.mul_nonneg (by omega) hpos.le
    · next hneg =>
      have hneg' : incr < 0 := by omega
      rw [← sub_nonpos, hdiff]
      constructor
      · intro hle
        have := nonneg_of_mul_nonpos_left hle hneg'
        omega
      · intro hlt
        exact Int.mul_nonpos_of_nonneg_of_nonpos (by omega) hneg'.le
  constructor
  · rintro ⟨j, rfl, hj⟩
    refine ⟨a + j, by omega, ?_, by push_cast; ring⟩
    have := (horder j).mp hj
    omega
  · rintro ⟨k, hle, hlt, rfl⟩
    obtain ⟨j, rfl⟩ := Nat.exists_eq_add_of_le hle
    have hval : lower + ((a + j : Nat) : Int) * incr = lower + a * incr + j * incr := by push_cast; ring
    rw [hval]
    exact ⟨j, rfl, (horder j).mpr (by omega)⟩

/-- Thread `t` runs its share. -/
theorem visits_share (hincr : incr ≠ 0) {lower : Int} {n T t : Nat}
    (hbusy : EvenSplit.share n T t ≠ 0 → lb = lower + EvenSplit.first n T t * incr ∧
      ub = lower + (EvenSplit.first n T t + EvenSplit.share n T t - 1) * incr)
    (hidle : EvenSplit.share n T t = 0 → Empty incr lb ub) :
    Visits incr lb ub v ↔ ∃ k : Nat, EvenSplit.first n T t ≤ k ∧
      k < EvenSplit.first n T t + EvenSplit.share n T t ∧ v = lower + k * incr := by
  by_cases hshare : EvenSplit.share n T t = 0
  · constructor
    · exact fun hv => absurd hv (not_visits_of_empty (hidle hshare))
    · rintro ⟨k, hle, hlt, -⟩
      omega
  · obtain ⟨hlo, hup⟩ := hbusy hshare
    rw [hlo, hup]
    exact visits_stretch hincr lower _ _

/-- Different iterations have different values. -/
theorem exists_share_iff (hincr : incr ≠ 0) (lower : Int) {a b k : Nat} :
    (∃ k' : Nat, a ≤ k' ∧ k' < b ∧ lower + (k : Int) * incr = lower + k' * incr) ↔ a ≤ k ∧ k < b := by
  constructor
  · rintro ⟨k', hle, hlt, heq⟩
    have hmul : (k : Int) * incr = k' * incr := Int.add_left_cancel heq
    have hk : k = k' := by exact_mod_cast mul_right_cancel₀ hincr hmul
    exact hk ▸ ⟨hle, hlt⟩
  · rintro ⟨hle, hlt⟩
    exact ⟨k, hle, hlt, rfl⟩

/-- **Bounds that partition the loop.**  Thread `t` gets the stretch of its share, or empty bounds and no flag
if it has none. -/
theorem partition_of_bounds (hincr : incr ≠ 0) (lower : Int) {n T : Nat} (hT : 0 < T) {r : Nat → Bounds}
    (hbusy : ∀ t, t < T → EvenSplit.share n T t ≠ 0 →
      (r t).plower = lower + EvenSplit.first n T t * incr ∧
      (r t).pupper = lower + (EvenSplit.first n T t + EvenSplit.share n T t - 1) * incr ∧
      ((r t).plastiter = true ↔ EvenSplit.first n T t + EvenSplit.share n T t = n))
    (hidle : ∀ t, t < T → EvenSplit.share n T t = 0 →
      Empty incr (r t).plower (r t).pupper ∧ (r t).plastiter = false) :
    Partition lower n T incr r := by
  have hvisits : ∀ t, t < T → ∀ v, Visits incr (r t).plower (r t).pupper v ↔
      ∃ k : Nat, EvenSplit.first n T t ≤ k ∧ k < EvenSplit.first n T t + EvenSplit.share n T t ∧
        v = lower + k * incr := by
    intro t ht v
    exact visits_share hincr (fun hshare => ⟨(hbusy t ht hshare).1, (hbusy t ht hshare).2.1⟩)
      fun hshare => (hidle t ht hshare).1
  have hat : ∀ t, t < T → ∀ k : Nat, Visits incr (r t).plower (r t).pupper (lower + k * incr) ↔
      EvenSplit.first n T t ≤ k ∧ k < EvenSplit.first n T t + EvenSplit.share n T t := by
    intro t ht k
    rw [hvisits t ht, exists_share_iff hincr]
  refine ⟨?_, ?_, ?_⟩
  · intro k hk
    obtain ⟨t, ⟨ht, hown⟩, huniq⟩ := EvenSplit.existsUnique_owner hT hk
    refine ⟨t, ⟨ht, (hat t ht k).mpr hown⟩, ?_⟩
    rintro t' ⟨ht', hv⟩
    exact huniq t' ⟨ht', (hat t' ht' k).mp hv⟩
  · intro t ht v hv
    obtain ⟨k, -, hlt, heq⟩ := (hvisits t ht v).mp hv
    have hle := EvenSplit.first_add_share_le ht (n := n)
    exact ⟨k, by omega, heq⟩
  · intro t ht
    have hle := EvenSplit.first_add_share_le ht (n := n)
    by_cases hn : 0 < n
    · rw [← Nat.cast_pred hn, hat t ht]
      by_cases hshare : EvenSplit.share n T t = 0
      · rw [(hidle t ht hshare).2]
        simp only [Bool.false_eq_true, false_iff]
        omega
      · rw [(hbusy t ht hshare).2.2]
        omega
    · have hshare : EvenSplit.share n T t = 0 := by omega
      rw [(hidle t ht hshare).2]
      simp [hn]

/-! ## What the signed case computes -/

open EvenSplit

/-- The offset of the first value of thread `t` from that of the loop, as the code has it: behind the threads
with one more iteration the remainder is added, and not multiplied by the increment. -/
def offset (n T : Nat) (incr : Int) (t : Nat) : Int :=
  if t < n % T then t * (n / T + 1 : Nat) * incr else t * (n / T : Nat) * incr + (n % T : Nat)

variable {H T t : Nat} {lower upper : Int} {r : Bounds}

theorem offset_of_lt {n : Nat} (h : t < n % T) : offset n T incr t = t * (n / T + 1 : Nat) * incr := if_pos h

theorem offset_of_le {n : Nat} (h : n % T ≤ t) :
    offset n T incr t = t * (n / T : Nat) * incr + (n % T : Nat) :=
  if_neg (Nat.not_lt.mpr h)

/-- The operations for the trip count do not overflow. -/
structure CountFits (H : Nat) (lower upper incr : Int) : Prop where
  range : Fits H (upper - lower)
  quot : Fits H ((upper - lower).tdiv incr)
  next : Fits H ((upper - lower).tdiv incr + 1)

theorem countFits_of_signed (h : staticInitSigned H T t lower upper incr = some r) :
    CountFits H lower upper incr := by
  unfold staticInitSigned at h
  simp only [Option.bind_eq_bind, bind_signed_eq_some] at h
  exact ⟨h.1, h.2.1, h.2.2.1⟩

variable {L : Nat}

/-- The first value of thread `t`, with a trip count of `L`. -/
def beginSigned (H : Nat) (lower : Int) (L T : Nat) (incr : Int) (t : Nat) : Int :=
  toSigned H (lower + offset L T incr t)

/-- The operations for the bounds do not overflow. -/
structure SpanFits (H : Nat) (lower : Int) (L T : Nat) (incr : Int) (t : Nat) : Prop where
  span : Fits H (share L T t * incr)
  behind : Fits H (beginSigned H lower L T incr t + share L T t * incr)
  pupper : Fits H (beginSigned H lower L T incr t + share L T t * incr - incr)

/-- The bounds of thread `t`, with a trip count of `L`. -/
def signedBounds (H : Nat) (lower upper incr : Int) (L T t : Nat) : Bounds where
  plower := beginSigned H lower L T incr t
  pupper := beginSigned H lower L T incr t + share L T t * incr - incr
  plastiter := decide (beginSigned H lower L T incr t + share L T t * incr - incr = upper) &&
    decide (beginSigned H lower L T incr t ≤ upper)
  pstride := toSigned H L

/-- The trip count `L` that the function finds, and the products that it makes of it to find the remainder. -/
structure Counted (H : Nat) (lower upper incr : Int) (L T : Nat) : Prop
    extends CountFits H lower upper incr where
  team : 0 < T
  count : toUnsigned H ((upper - lower).tdiv incr + 1) = L
  chunk : Fits H (L / T : Nat)
  product : Fits H (L / T * T : Nat)
  leftOver : L % T < H

/-- If some threads get one iteration more, there is room for it. -/
theorem fits_chunk_succ (hT : 0 < T) (hproduct : Fits H (L / T * T : Nat)) (hrem : L % T < H)
    (ht : t < L % T) : Fits H (((L / T : Nat) : Int) + 1) := by
  have htwo : 2 ≤ T := by
    have := Nat.mod_lt L hT
    omega
  have htwice : L / T * 2 ≤ L / T * T := Nat.mul_le_mul_left _ htwo
  have hlt := hproduct.2
  generalize L / T * T = product at *
  generalize L / T = chunk at *
  unfold Fits
  omega

/-- With the trip count at hand, the rest of the function. -/
theorem signed_eq (h : Counted H lower upper incr L T) :
    staticInitSigned H T t lower upper incr = (do
      let span ← signed H (share L T t * incr)
      let behind ← signed H (beginSigned H lower L T incr t + span)
      let pupper ← signed H (behind - incr)
      some ⟨beginSigned H lower L T incr t, pupper,
        decide (pupper = upper) && decide (beginSigned H lower L T incr t ≤ upper), toSigned H L⟩) := by
  have hmul : L / T * T + L % T = L := Nat.div_add_mod' L T
  have hmulInt : ((L / T : Nat) : Int) * T = (L / T * T : Nat) := (Nat.cast_mul _ _).symm
  have hrem : (L : Int) - (L / T * T : Nat) = (L % T : Nat) := by omega
  have hleftOver : toSigned H ((L % T : Nat) : Int) = (L % T : Nat) := by
    have := h.leftOver
    exact toSigned_of_fits (by unfold Fits; omega)
  have hdivInt : (L : Int) / (T : Int) = (L / T : Nat) := rfl
  unfold staticInitSigned
  simp only [signed_of_fits h.range, Option.bind_eq_bind, Option.bind_some, signed_of_fits h.quot,
    signed_of_fits h.next, h.count, hdivInt, toSigned_of_fits h.chunk, hmulInt,
    signed_of_fits h.product, hrem, hleftOver, Nat.cast_lt]
  by_cases ht : t < L % T
  · have hnext := fits_chunk_succ h.team h.product h.leftOver ht
    simp only [ht, if_true, signed_of_fits hnext, Option.bind_some, beginSigned, offset, share_of_lt ht,
      Nat.cast_succ]
  · simp only [ht, if_false, beginSigned, offset, share_of_le (Nat.not_lt.mp ht), ← Int.add_assoc]

theorem signed_eq_some (h : Counted H lower upper incr L T) :
    staticInitSigned H T t lower upper incr = some r ↔
      SpanFits H lower L T incr t ∧ r = signedBounds H lower upper incr L T t := by
  rw [signed_eq h]
  simp only [Option.bind_eq_bind, bind_signed_eq_some, Option.some.injEq]
  constructor
  · rintro ⟨hspan, hbehind, hpupper, rfl⟩
    exact ⟨⟨hspan, hbehind, hpupper⟩, rfl⟩
  · rintro ⟨hfits, rfl⟩
    exact ⟨hfits.span, hfits.behind, hfits.pupper, rfl⟩

/-- Without overflow, a loop whose upper bound is its last value has its own trip count. -/
theorem counted_of_fits {n : Nat} (hincr : incr ≠ 0) (hupper : upper = lower + ((n : Int) - 1) * incr)
    (h : CountFits H lower upper incr) (hT : 0 < T) : Counted H lower upper incr n T := by
  have hrange : upper - lower = ((n : Int) - 1) * incr := by rw [hupper]; ring
  have hquot : (upper - lower).tdiv incr = n - 1 := by rw [hrange, Int.mul_tdiv_cancel _ hincr]
  have hnext := h.next
  rw [hquot] at hnext
  unfold Fits at hnext
  have hdiv : n / T ≤ n / T * T := Nat.le_mul_of_pos_right _ hT
  have hmul : n / T * T + n % T = n := Nat.div_add_mod' n T
  generalize hproduct : n / T * T = product at hdiv hmul
  generalize hchunk : n / T = chunk at hdiv
  refine ⟨h, hT, ?_, ?_, ?_, ?_⟩
  · rw [hquot]
    exact (toUnsigned_of_range (by omega) (by omega)).trans (by omega)
  · rw [hchunk]
    unfold Fits
    omega
  · rw [hproduct]
    unfold Fits
    omega
  · omega

/-! ## What the unsigned case computes -/

/-- The chunk size of thread `t`. -/
def chunkUnsigned (H L T t : Nat) : Int :=
  if t < L % T then toSigned H (L / T : Nat) + 1 else toSigned H (L / T : Nat)

/-- The products for the bounds of thread `t` do not overflow. -/
structure ProductsFit (H L T : Nat) (incr : Int) (t : Nat) : Prop where
  product : Fits H (toSigned H (L / T : Nat) * T)
  index : Fits H (t * chunkUnsigned H L T t)
  offset : Fits H (t * chunkUnsigned H L T t * incr)
  span : Fits H (chunkUnsigned H L T t * incr)

/-- The first value of thread `t`, with a trip count of `L`. -/
def beginUnsigned (H : Nat) (lower : Int) (L T : Nat) (incr : Int) (t : Nat) : Int :=
  toUnsigned H (lower + offset L T incr t)

/-- The bounds of thread `t`, with a trip count of `L`. -/
def unsignedBounds (H : Nat) (lower upper incr : Int) (L T t : Nat) : Bounds where
  plower := beginUnsigned H lower L T incr t
  pupper := toUnsigned H (beginUnsigned H lower L T incr t + share L T t * incr - incr)
  plastiter := decide (toUnsigned H (beginUnsigned H lower L T incr t + share L T t * incr - incr) = upper) &&
    decide (beginUnsigned H lower L T incr t ≤ upper)
  pstride := toSigned H L

/-- A chunk size that does not fit agrees with the share in the bits that it has. -/
theorem dvd_chunkUnsigned_sub (H L T t : Nat) : (2 * H : Int) ∣ chunkUnsigned H L T t - share L T t := by
  have hdvd := dvd_toSigned_sub H ((L / T : Nat) : Int)
  unfold chunkUnsigned share
  split
  · have hdiff : toSigned H ((L / T : Nat) : Int) + 1 - ((L / T + 1 : Nat) : Int) =
        toSigned H ((L / T : Nat) : Int) - (L / T : Nat) := by
      push_cast
      ring
    rwa [hdiff]
  · exact hdvd

theorem beginUnsigned_of_lt (h : t < L % T) :
    toUnsigned H (lower + t * chunkUnsigned H L T t * incr) = beginUnsigned H lower L T incr t := by
  apply toUnsigned_congr
  have hdiff : lower + t * chunkUnsigned H L T t * incr - (lower + offset L T incr t) =
      (chunkUnsigned H L T t - share L T t) * (t * incr) := by
    rw [offset_of_lt h, share_of_lt h]
    ring
  rw [hdiff]
  exact (dvd_chunkUnsigned_sub H L T t).mul_right _

theorem beginUnsigned_of_le (h : L % T ≤ t) :
    toUnsigned H (lower + t * chunkUnsigned H L T t * incr + (L % T : Nat)) =
      beginUnsigned H lower L T incr t := by
  apply toUnsigned_congr
  have hdiff : lower + t * chunkUnsigned H L T t * incr + (L % T : Nat) - (lower + offset L T incr t) =
      (chunkUnsigned H L T t - share L T t) * (t * incr) := by
    rw [offset_of_le h, share_of_le h]
    ring
  rw [hdiff]
  exact (dvd_chunkUnsigned_sub H L T t).mul_right _

theorem pupperUnsigned_eq (H : Nat) (lower : Int) (L T : Nat) (incr : Int) (t : Nat) :
    toUnsigned H (beginUnsigned H lower L T incr t + chunkUnsigned H L T t * incr - incr) =
      toUnsigned H (beginUnsigned H lower L T incr t + share L T t * incr - incr) := by
  apply toUnsigned_congr
  have hdiff : beginUnsigned H lower L T incr t + chunkUnsigned H L T t * incr - incr -
      (beginUnsigned H lower L T incr t + share L T t * incr - incr) =
      (chunkUnsigned H L T t - share L T t) * incr := by ring
  rw [hdiff]
  exact (dvd_chunkUnsigned_sub H L T t).mul_right _

/-- The remainder, from a product that does not overflow. -/
theorem leftOver_eq (hT : 0 < T) (hTH : T ≤ H) :
    toSigned H (L - toSigned H (L / T : Nat) * T) = (L % T : Nat) := by
  have hlt : L % T < T := Nat.mod_lt L hT
  have hfits : Fits H ((L % T : Nat) : Int) := by
    unfold Fits
    omega
  rw [← toSigned_of_fits hfits]
  apply toSigned_congr
  have hmul : ((L / T : Nat) : Int) * T + (L % T : Nat) = L := by exact_mod_cast Nat.div_add_mod' L T
  have hdiff : (L : Int) - toSigned H (L / T : Nat) * T - (L % T : Nat) =
      (toSigned H (L / T : Nat) - (L / T : Nat)) * (-T) := by linear_combination -hmul
  rw [hdiff]
  exact (dvd_toSigned_sub H _).mul_right _

/-- A thread with one iteration more has a chunk size that fits. -/
theorem fits_chunkUnsigned (hT : 0 < T) (hTH : T ≤ H) (hL : L < 2 * H) (ht : t < L % T)
    (hproduct : Fits H (toSigned H (L / T : Nat) * T)) : Fits H (toSigned H (L / T : Nat) + 1) := by
  have hlt : L % T < T := Nat.mod_lt L hT
  have hhalf : L / T < H := by
    apply Nat.div_lt_of_lt_mul
    have : 2 * H ≤ T * H := Nat.mul_le_mul_right H (by omega)
    omega
  have hfits : Fits H ((L / T : Nat) : Int) := by
    generalize L / T = chunk at *
    unfold Fits
    omega
  rw [toSigned_of_fits hfits] at hproduct ⊢
  exact fits_chunk_succ hT (by exact_mod_cast hproduct) (by omega) ht

/-- The bounds, from the place where the thread begins. -/
theorem bounds_eq (plower : Int → Int)
    (hplower : plower (t * chunkUnsigned H L T t * incr) = beginUnsigned H lower L T incr t) :
    (do
      let index ← signed H (t * chunkUnsigned H L T t)
      let offset ← signed H (index * incr)
      let span ← signed H (chunkUnsigned H L T t * incr)
      some (Bounds.mk (plower offset) (toUnsigned H (plower offset + span - incr))
        (decide (toUnsigned H (plower offset + span - incr) = upper) && decide (plower offset ≤ upper))
        (toSigned H L))) = (do
      let index ← signed H (t * chunkUnsigned H L T t)
      let _ ← signed H (index * incr)
      let _ ← signed H (chunkUnsigned H L T t * incr)
      some (unsignedBounds H lower upper incr L T t)) := by
  apply Option.bind_congr
  intro index hindex
  obtain ⟨-, rfl⟩ := signed_eq_some_iff.mp hindex
  apply Option.bind_congr
  intro offset hoffset
  obtain ⟨-, rfl⟩ := signed_eq_some_iff.mp hoffset
  apply Option.bind_congr
  intro span hspan
  obtain ⟨-, rfl⟩ := signed_eq_some_iff.mp hspan
  rw [hplower, pupperUnsigned_eq]
  rfl

/-- With the trip count at hand, the rest of the function. -/
theorem unsigned_eq (hT : 0 < T) (hTH : T ≤ H) (hL : L < 2 * H)
    (hcount : toUnsigned H (toUnsigned H (upper - lower) / toUnsigned H incr + 1) = L) :
    staticInitUnsigned H T t lower upper incr = (do
      let _ ← signed H (toSigned H (L / T : Nat) * T)
      let index ← signed H (t * chunkUnsigned H L T t)
      let _ ← signed H (index * incr)
      let _ ← signed H (chunkUnsigned H L T t * incr)
      some (unsignedBounds H lower upper incr L T t)) := by
  have hdivInt : (L : Int) / (T : Int) = (L / T : Nat) := rfl
  have hleftOver : toSigned H (L - toSigned H (L / T : Nat) * T) = (L % T : Nat) := leftOver_eq hT hTH
  unfold staticInitUnsigned
  simp only [hcount, hdivInt]
  by_cases hproduct : Fits H (toSigned H (L / T : Nat) * T)
  · simp only [signed_of_fits hproduct, Option.bind_eq_bind, Option.bind_some, hleftOver, Nat.cast_lt]
    by_cases ht : t < L % T
    · have hnext := fits_chunkUnsigned hT hTH hL ht hproduct
      have hchunk : toSigned H (L / T : Nat) + 1 = chunkUnsigned H L T t := (if_pos ht).symm
      rw [hchunk] at hnext
      simp only [ht, if_true, hchunk, signed_of_fits hnext, Option.bind_some]
      exact bounds_eq (fun offset => toUnsigned H (lower + offset)) (beginUnsigned_of_lt ht)
    · have hchunk : toSigned H (L / T : Nat) = chunkUnsigned H L T t := (if_neg ht).symm
      simp only [ht, if_false, hchunk]
      exact bounds_eq (fun offset => toUnsigned H (lower + offset + (L % T : Nat)))
        (beginUnsigned_of_le (Nat.not_lt.mp ht))
  · have hnone : signed H (toSigned H (L / T : Nat) * T) = none := if_neg hproduct
    simp only [hnone, Option.bind_eq_bind, Option.bind_none]

theorem unsigned_eq_some (hT : 0 < T) (hTH : T ≤ H) (hL : L < 2 * H)
    (hcount : toUnsigned H (toUnsigned H (upper - lower) / toUnsigned H incr + 1) = L) :
    staticInitUnsigned H T t lower upper incr = some r ↔
      ProductsFit H L T incr t ∧ r = unsignedBounds H lower upper incr L T t := by
  rw [unsigned_eq hT hTH hL hcount]
  simp only [Option.bind_eq_bind, bind_signed_eq_some, Option.some.injEq]
  constructor
  · rintro ⟨hproduct, hindex, hoffset, hspan, rfl⟩
    exact ⟨⟨hproduct, hindex, hoffset, hspan⟩, rfl⟩
  · rintro ⟨hfits, rfl⟩
    exact ⟨hfits.product, hfits.index, hfits.offset, hfits.span, rfl⟩

end Omp

end CachePool
