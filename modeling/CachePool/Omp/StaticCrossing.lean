import CachePool.Omp.StaticSigned

/-!
# Unsigned loops with a bound in either half

`__kmpc_for_static_init_4u` converts its bounds to signed ones, so the upper half of the values comes before
the lower half.  A loop with its bounds in different halves is then another loop for
`__kmpc_for_static_init_4`.

* `Crosses` — the step that leaves the half.
* `crossing_partitions_iff` — such a loop is only split among one thread, downwards, and with steps that
  divide `2 * H`.
-/

set_option autoImplicit false

namespace CachePool

namespace Omp

open CInt EvenSplit

variable {H n T t L s : Nat} {lower upper incr il iu v w p p' : Int} {r : Nat → Bounds}

/-- The step from `v` leaves the half that `v` is in. -/
def Crosses (H : Nat) (incr v : Int) : Prop :=
  (0 < incr ∧ v < H ∧ H ≤ v + incr) ∨ (incr < 0 ∧ H ≤ v ∧ v + incr < H)

/-- A thread that ends where the step leaves the half overflows behind its last value. -/
theorem not_visits_of_crosses (hp : Fits H p) (hp' : Fits H p') (hbehind : Fits H (p' + incr)) (hs : 0 < s)
    (hend : p' = p + s * incr - incr) (h : Crosses H incr v) :
    ¬ Visits incr (toUnsigned H p) (toUnsigned H p') v := by
  rintro ⟨j, rfl, hle⟩
  have hlast : p' = p + ((s - 1 : Nat) : Int) * incr := by
    rw [hend, Nat.cast_pred hs]
    ring
  rcases h with ⟨hpos, hlt, hge⟩ | ⟨hneg, hge, hlt⟩
  · rw [if_pos hpos] at hle
    have hstep : 0 ≤ (j : Int) * incr := Int.mul_nonneg (Int.natCast_nonneg j) hpos.le
    have hspan : 0 ≤ ((s - 1 : Nat) : Int) * incr := Int.mul_nonneg (Int.natCast_nonneg _) hpos.le
    have hp0 : 0 ≤ p := by
      by_contra hneg
      rw [toUnsigned_of_neg hp (Int.not_le.mp hneg)] at hlt
      unfold Fits at hp
      omega
    rw [toUnsigned_of_nonneg hp hp0, toUnsigned_of_nonneg hp' (by omega)] at hle
    rw [toUnsigned_of_nonneg hp hp0] at hge
    unfold Fits at hbehind
    omega
  · rw [if_neg (by omega)] at hle
    have hstep : (j : Int) * incr ≤ 0 := Int.mul_nonpos_of_nonneg_of_nonpos (Int.natCast_nonneg j) hneg.le
    have hspan : ((s - 1 : Nat) : Int) * incr ≤ 0 :=
      Int.mul_nonpos_of_nonneg_of_nonpos (Int.natCast_nonneg _) hneg.le
    have hp0 : p < 0 := by
      by_contra hpos
      rw [toUnsigned_of_nonneg hp (Int.not_lt.mp hpos)] at hge
      unfold Fits at hp
      omega
    rw [toUnsigned_of_neg hp hp0, toUnsigned_of_neg hp' (by omega)] at hle
    rw [toUnsigned_of_neg hp hp0] at hlt
    unfold Fits at hbehind
    omega

/-- A loop with its bounds in different halves has such a step. -/
theorem exists_crosses (hincr : incr ≠ 0) (hn : 0 < n) (hupper : upper = lower + (n - 1) * incr)
    (h : (lower < H ∧ H ≤ upper) ∨ (H ≤ lower ∧ upper < H)) :
    ∃ k : Nat, k + 1 < n ∧ Crosses H incr (lower + k * incr) := by
  rw [← Nat.cast_pred hn] at hupper
  have hnext : ∀ k : Nat, lower + ((k + 1 : Nat) : Int) * incr = lower + k * incr + incr := by
    intro k
    push_cast
    ring
  rcases Int.lt_or_gt_of_ne hincr with hneg | hpos
  · have hback : ((n - 1 : Nat) : Int) * incr ≤ 0 :=
      Int.mul_nonpos_of_nonneg_of_nonpos (Int.natCast_nonneg _) hneg.le
    obtain ⟨k, hk, hk'⟩ := Nat.exists_not_and_succ_of_not_zero_of_exists
      (p := fun k => lower + (k : Int) * incr < H) (by simp; omega) ⟨n - 1, by omega⟩
    rw [hnext] at hk'
    refine ⟨k, ?_, Or.inr ⟨hneg, Int.not_lt.mp hk, hk'⟩⟩
    by_contra hle
    have hmono : (k : Int) * incr ≤ ((n - 1 : Nat) : Int) * incr :=
      Int.mul_le_mul_of_nonpos_right (by omega) hneg.le
    omega
  · have hforth : 0 ≤ ((n - 1 : Nat) : Int) * incr := Int.mul_nonneg (Int.natCast_nonneg _) hpos.le
    obtain ⟨k, hk, hk'⟩ := Nat.exists_not_and_succ_of_not_zero_of_exists
      (p := fun k => (H : Int) ≤ lower + (k : Int) * incr) (by simp; omega) ⟨n - 1, by omega⟩
    rw [hnext] at hk'
    refine ⟨k, ?_, Or.inl ⟨hpos, Int.not_le.mp hk, hk'⟩⟩
    by_contra hle
    have hmono : ((n - 1 : Nat) : Int) * incr ≤ k * incr := Int.mul_le_mul_of_nonneg_right (by omega) hpos.le
    omega

/-! ## Threads that begin in the wrong place -/

/-- Of two threads with the same bounds neither runs anything. -/
theorem Partition.not_visits_of_twin (hp : Partition lower n T incr r) {t' : Nat} (ht : t < T) (ht' : t' < T)
    (hne : t ≠ t') (hlower : (r t).plower = (r t').plower) (hupper : (r t).pupper = (r t').pupper) (v : Int) :
    ¬ Visits incr (r t).plower (r t).pupper v := by
  intro hv
  obtain ⟨k, hk, rfl⟩ := hp.only t ht v hv
  have hv' : Visits incr (r t').plower (r t').pupper (lower + k * incr) := by rwa [← hlower, ← hupper]
  exact hne ((hp.once k hk).unique ⟨ht, hv⟩ ⟨ht', hv'⟩)

/-- A thread that begins one above the loop's first value does not come to the second one. -/
theorem not_visits_second (hH : 2 ≤ H) (hincr : incr ≠ 0) (hincr' : Fits H incr) (hone : incr ≠ 1)
    (hdvd : (2 * H : Int) ∣ w - (lower + 1)) {k : Nat} (hw : w = lower + k * incr) :
    ¬ Visits incr w p (lower + incr) := by
  rintro ⟨j, hj, -⟩
  have hsum : ((k : Int) + j) * incr = 1 * incr := by
    rw [hw] at hj
    linear_combination -hj
  have hcancel := mul_right_cancel₀ hincr hsum
  unfold Fits at hincr'
  have hw' : w - (lower + 1) = k * incr - 1 := by
    rw [hw]
    ring
  rw [hw'] at hdvd
  obtain rfl | rfl : k = 0 ∨ k = 1 := by omega
  · have heq := eq_of_dvd hdvd (by simp; omega) (by simp; omega)
    simp at heq
  · have heq := eq_of_dvd hdvd (by simp; omega) (by simp; omega)
    simp at heq
    exact hone heq

/-! ## One thread -/

/-- A thread alone gets the whole of the loop that the trip count is for. -/
theorem signed_alone (hil : Fits H il) (h : CountFits H il iu incr) :
    staticInitSigned H 1 0 il iu incr = (do
      let span ← signed H (((iu - il).tdiv incr + 1) * incr)
      let behind ← signed H (il + span)
      let pupper ← signed H (behind - incr)
      some ⟨il, pupper, decide (pupper = iu) && decide (il ≤ iu), (iu - il).tdiv incr + 1⟩) := by
  have hleftOver : toSigned H (toUnsigned H ((iu - il).tdiv incr + 1) - ((iu - il).tdiv incr + 1)) = 0 := by
    have hzero : Fits H 0 := by
      unfold Fits at *
      omega
    have hdvd := dvd_toUnsigned_sub H ((iu - il).tdiv incr + 1)
    rw [← toSigned_of_fits hzero]
    apply toSigned_congr
    rwa [Int.sub_zero]
  unfold staticInitSigned
  simp only [signed_of_fits h.range, Option.bind_eq_bind, Option.bind_some, signed_of_fits h.quot,
    signed_of_fits h.next, Nat.cast_one, Int.ediv_one, toSigned_toUnsigned h.next, Int.mul_one, hleftOver,
    Nat.cast_zero, lt_irrefl, if_false, Int.zero_mul, Int.add_zero, toSigned_of_fits hil]

/-- A lone thread that has the last iteration of a loop with its bounds in different halves: it runs
downwards, and the steps are of a size that divides the number of all values. -/
theorem dvd_of_alone (hn : 0 < n) (hupper : upper = lower + (n - 1) * incr)
    (hhalves : (lower < H ∧ H ≤ upper ∧ il = lower ∧ iu = upper - 2 * H) ∨
      (H ≤ lower ∧ upper < H ∧ il = lower - 2 * H ∧ iu = upper))
    (hend : il + ((iu - il).tdiv incr + 1) * incr - incr = iu) (hle : il ≤ iu)
    (hlower : 0 ≤ lower ∧ lower < 2 * H) (hupper' : 0 ≤ upper ∧ upper < 2 * H) : incr < 0 ∧ incr ∣ 2 * H := by
  rcases hhalves with ⟨hlt, hge, rfl, rfl⟩ | ⟨hge, hlt, rfl, rfl⟩
  · omega
  · constructor
    · by_contra hpos
      have hforth : 0 ≤ ((n : Int) - 1) * incr := Int.mul_nonneg (by omega) (by omega)
      omega
    · refine ⟨(iu - (lower - 2 * H)).tdiv incr - (n - 1), ?_⟩
      linear_combination -hend - hupper

theorem alone_eq (hincr' : Fits H incr) (hupper : upper = lower + (n - 1) * incr)
    (hge : H ≤ lower) (hlt : upper < H) (hlower : 0 ≤ lower ∧ lower < 2 * H)
    (hupper' : 0 ≤ upper ∧ upper < 2 * H) (hneg : incr < 0) (hdvd : incr ∣ 2 * H)
    (hrange : Fits H (upper - (lower - 2 * H))) :
    ∃ pstride,
      staticInitSigned H 1 0 (lower - 2 * H) upper incr = some ⟨lower - 2 * H, upper, true, pstride⟩ := by
  have hdvd' : incr ∣ upper - (lower - 2 * H) := by
    have hsum : upper - (lower - 2 * H) = incr * (n - 1) + 2 * H := by
      rw [hupper]
      ring
    rw [hsum]
    exact dvd_add (dvd_mul_right _ _) hdvd
  have hquot : (upper - (lower - 2 * H)).tdiv incr * incr = upper - (lower - 2 * H) :=
    Int.tdiv_mul_cancel hdvd'
  generalize hq : (upper - (lower - 2 * H)).tdiv incr = quot at hquot
  have hrange0 : 0 < upper - (lower - 2 * H) := by omega
  have hquot0 : quot < 0 := by
    by_contra hge0
    have hprod : quot * incr ≤ 0 := Int.mul_nonpos_of_nonneg_of_nonpos (by omega) hneg.le
    omega
  have hquotle : -quot ≤ upper - (lower - 2 * H) := by
    have hprod : -quot * 1 ≤ -quot * -incr := Int.mul_le_mul_of_nonneg_left (by omega) (by omega)
    rw [Int.neg_mul_neg, hquot] at hprod
    omega
  have hspan : (quot + 1) * incr = upper - (lower - 2 * H) + incr := by rw [Int.add_mul, hquot, Int.one_mul]
  have hil : Fits H (lower - 2 * H) := by
    unfold Fits
    omega
  unfold Fits at hrange hincr'
  have hcount : CountFits H (lower - 2 * H) upper incr := by
    refine ⟨hrange, ?_, ?_⟩ <;>
    · rw [hq]
      unfold Fits
      omega
  have h₁ : Fits H (upper - (lower - 2 * H) + incr) := by
    unfold Fits
    omega
  have hbehind : lower - 2 * H + (upper - (lower - 2 * H) + incr) = upper + incr := by ring
  have h₂ : Fits H (upper + incr) := by
    unfold Fits
    omega
  have h₃ : Fits H upper := by
    unfold Fits
    omega
  have horder : lower - 2 * H ≤ upper := by omega
  refine ⟨quot + 1, ?_⟩
  simp only [signed_alone hil hcount, hq, hspan, signed_of_fits h₁, Option.bind_eq_bind,
    Option.bind_some, hbehind, signed_of_fits h₂, Int.add_sub_cancel, signed_of_fits h₃, decide_true, horder,
    Bool.and_self]

/-! ## Several threads -/

theorem counted_of_team (htwo : 2 ≤ T) (hTH : T ≤ H) {b : Bounds}
    (h : staticInitSigned H T t il iu incr = some b) (hL : toUnsigned H ((iu - il).tdiv incr + 1) = L) :
    Counted H il iu incr L T := by
  have hcount := countFits_of_signed h
  have hrange := toUnsigned_range (by omega : 0 < H) ((iu - il).tdiv incr + 1)
  have hhalf : L / T < H := by
    apply Nat.div_lt_of_lt_mul
    have hmul : 2 * H ≤ T * H := Nat.mul_le_mul_right H htwo
    omega
  have hrem : L % T < T := Nat.mod_lt L (by omega)
  have hchunk : Fits H ((L / T : Nat) : Int) := by
    generalize L / T = chunk at hhalf
    unfold Fits
    omega
  have hdivInt : (L : Int) / (T : Int) = (L / T : Nat) := rfl
  unfold staticInitSigned at h
  simp only [Option.bind_eq_bind, bind_signed_eq_some, hL, hdivInt, toSigned_of_fits hchunk] at h
  have hproduct := h.2.2.2.1
  exact ⟨hcount, by omega, hL, hchunk, by exact_mod_cast hproduct, by omega⟩

/-- The trip count of the other loop is at most one, as its range and its increment have different signs. -/
theorem tdiv_nonpos (hn : 0 < n) (hupper : upper = lower + (n - 1) * incr)
    (hhalves : (lower < H ∧ H ≤ upper ∧ il = lower ∧ iu = upper - 2 * H) ∨
      (H ≤ lower ∧ upper < H ∧ il = lower - 2 * H ∧ iu = upper))
    (hlower : 0 ≤ lower ∧ lower < 2 * H) (hupper' : 0 ≤ upper ∧ upper < 2 * H) : (iu - il).tdiv incr ≤ 0 := by
  rcases hhalves with ⟨hlt, hge, rfl, rfl⟩ | ⟨hge, hlt, rfl, rfl⟩
  · have hpos : 0 ≤ incr := by
      by_contra hneg
      have hback : ((n : Int) - 1) * incr ≤ 0 := Int.mul_nonpos_of_nonneg_of_nonpos (by omega) (by omega)
      omega
    have hneg : (upper - 2 * H - il).tdiv incr = -(-(upper - 2 * H - il)).tdiv incr := by
      rw [Int.neg_tdiv, Int.neg_neg]
    rw [hneg]
    have := Int.tdiv_nonneg (a := -(upper - 2 * H - il)) (by omega) hpos
    omega
  · have hneg : incr ≤ 0 := by
      by_contra hpos
      have hforth : 0 ≤ ((n : Int) - 1) * incr := Int.mul_nonneg (by omega) (by omega)
      omega
    exact Int.tdiv_nonpos_of_nonneg_of_nonpos (by omega) hneg

theorem beginSigned_zero (hil : Fits H il) : beginSigned H il L T incr 0 = il := by
  unfold beginSigned
  rw [offset_zero, Int.add_zero, toSigned_of_fits hil]

/-- The other loop of one without iterations has two, if there is no overflow. -/
theorem tdiv_of_empty (hH : 2 ≤ H) (hincr' : Fits H incr) (hupper : upper = lower - incr)
    (hhalves : (lower < H ∧ H ≤ upper ∧ il = lower ∧ iu = upper - 2 * H) ∨
      (H ≤ lower ∧ upper < H ∧ il = lower - 2 * H ∧ iu = upper))
    (hrange : Fits H (iu - il)) : incr = -H ∧ (iu - il).tdiv incr = 1 := by
  unfold Fits at hincr' hrange
  have hincr : incr = -H := by
    rcases hhalves with ⟨hlt, hge, rfl, rfl⟩ | ⟨hge, hlt, rfl, rfl⟩ <;> omega
  have hself : iu - il = incr := by
    rcases hhalves with ⟨hlt, hge, rfl, rfl⟩ | ⟨hge, hlt, rfl, rfl⟩ <;> omega
  refine ⟨hincr, ?_⟩
  rw [hself]
  exact Int.tdiv_self (by omega)

section Team

variable (hil : Fits H il) (hconv : toUnsigned H il = lower)
  (hspan : ∀ t, t < T → SpanFits H il L T incr t) (hp : Partition lower n T incr r)
  (hr : ∀ t, t < T → r t = convertedBounds H (toUnsigned H) il iu incr L T t)

include hspan hr in
/-- The thread that has the value before the crossing has no share. -/
theorem share_eq_zero_of_crosses (hH : 0 < H) (ht : t < T) (hcross : Crosses H incr v)
    (hv : Visits incr (r t).plower (r t).pupper v) : share L T t = 0 := by
  by_contra hshare
  have hfits := hspan t ht
  rw [hr t ht] at hv
  have hbehind : Fits H (beginSigned H il L T incr t + share L T t * incr - incr + incr) := by
    rw [Int.sub_add_cancel]
    exact hfits.behind
  exact not_visits_of_crosses (s := share L T t) (fits_toSigned hH _) hfits.pupper hbehind
    (Nat.pos_of_ne_zero hshare) rfl hcross hv

include hil hconv hr in
/-- A first thread with one iteration has the first value and no other. -/
theorem bounds_zero (hT : 0 < T) (hone : share L T 0 = 1) : (r 0).plower = lower ∧ (r 0).pupper = lower := by
  rw [hr 0 hT]
  show toUnsigned H (beginSigned H il L T incr 0) = lower ∧
    toUnsigned H (beginSigned H il L T incr 0 + share L T 0 * incr - incr) = lower
  rw [beginSigned_zero hil, hone, Nat.cast_one, Int.one_mul, Int.add_sub_cancel]
  exact ⟨hconv, hconv⟩

include hr in
/-- Threads without a share have the same bounds. -/
theorem idle_bounds (hlt : L < T) {t' : Nat} (hLt : L ≤ t) (ht : t < T) (hLt' : L ≤ t') (ht' : t' < T) :
    (r t).plower = (r t').plower ∧ (r t).pupper = (r t').pupper := by
  have hbounds : ∀ t, L ≤ t → t < T → (r t).plower = toUnsigned H (idleBegin H il L) ∧
      (r t).pupper = toUnsigned H (idleBegin H il L - incr) := by
    intro t hLt ht
    rw [hr t ht, ← pupper_of_idle hlt hLt, ← beginSigned_of_idle hlt hLt]
    exact ⟨rfl, rfl⟩
  obtain ⟨h₁, h₂⟩ := hbounds t hLt ht
  obtain ⟨h₁', h₂'⟩ := hbounds t' hLt' ht'
  exact ⟨h₁.trans h₁'.symm, h₂.trans h₂'.symm⟩

include hil hconv hspan hp hr in
theorem team_fails (hH : 2 ≤ H) (htwo : 2 ≤ T) (hTH : T ≤ H) (hincr : incr ≠ 0) (hincr' : Fits H incr)
    (hn : 0 < n) (hupper : upper = lower + (n - 1) * incr)
    (hhalves : (lower < H ∧ H ≤ upper ∧ il = lower ∧ iu = upper - 2 * H) ∨
      (H ≤ lower ∧ upper < H ∧ il = lower - 2 * H ∧ iu = upper))
    (hlower : 0 ≤ lower ∧ lower < 2 * H) (hupper' : 0 ≤ upper ∧ upper < 2 * H)
    (hcounted : Counted H il iu incr L T) : False := by
  obtain ⟨k, hk, hcross⟩ := exists_crosses (H := H) hincr hn hupper (by omega)
  obtain ⟨t, ⟨ht, hv⟩, -⟩ := hp.once k (by omega)
  have hshare := share_eq_zero_of_crosses hspan hr (by omega) ht hcross hv
  obtain ⟨hlt, hLt⟩ := (share_eq_zero_iff (by omega)).mp hshare
  have hquot := tdiv_nonpos hn hupper hhalves hlower hupper'
  have hnext := hcounted.next
  have hcount := hcounted.count
  generalize hq : (iu - il).tdiv incr = quot at hquot hnext hcount
  have hL : quot + 1 = L := by
    rcases lt_or_ge (quot + 1) 0 with hneg | hpos
    · rw [toUnsigned_of_neg hnext hneg] at hcount
      unfold Fits at hnext
      omega
    · rwa [toUnsigned_of_nonneg hnext hpos] at hcount
  have htwin : ∀ t', L ≤ t' → t' < T → t' = t := by
    intro t' hLt' ht'
    by_contra hne
    obtain ⟨hlo, hup⟩ := idle_bounds hr hlt hLt ht hLt' ht'
    exact hp.not_visits_of_twin ht ht' (Ne.symm hne) hlo hup _ hv
  have hone : L = 1 := by
    by_contra hne
    have h0 := htwin 0 (by omega) (by omega)
    have h1 := htwin 1 (by omega) (by omega)
    omega
  subst hone
  have ht1 := htwin 1 (Nat.le_refl 1) (by omega)
  have hincr1 : incr ≠ 1 := by
    rintro rfl
    rw [Int.tdiv_one] at hq
    omega
  obtain ⟨hplower, hpupper⟩ := bounds_zero hil hconv hr (by omega) (of_lt hlt Nat.one_pos).2
  obtain ⟨t', ⟨ht', hv'⟩, -⟩ := hp.once 1 (by omega)
  rw [Nat.cast_one, Int.one_mul] at hv'
  rcases Nat.eq_zero_or_pos t' with rfl | hpos
  · rw [hplower, hpupper] at hv'
    obtain ⟨j, hj, hle⟩ := hv'
    split at hle <;> omega
  · obtain rfl : t' = t := htwin t' hpos ht'
    have hbegin : (r t').plower = toUnsigned H (idleBegin H il 1) := by
      rw [hr t' ht', ← beginSigned_of_idle hlt hpos]
      rfl
    have hdvd : (2 * H : Int) ∣ (r t').plower - (lower + 1) := by
      rw [hbegin]
      have hsum := dvd_add
        (dvd_add (dvd_toUnsigned_sub H (idleBegin H il 1)) (dvd_toSigned_sub H (il + (1 : Nat))))
        (dvd_sub_comm.mp (dvd_toUnsigned_sub H il))
      rw [hconv] at hsum
      have hdiff : toUnsigned H (idleBegin H il 1) - idleBegin H il 1 +
          (toSigned H (il + (1 : Nat)) - (il + (1 : Nat))) + (il - lower) =
          toUnsigned H (idleBegin H il 1) - (lower + 1) := by
        unfold idleBegin
        push_cast
        ring
      rwa [hdiff] at hsum
    obtain ⟨k', -, hw⟩ := hp.only t' ht' _ (visits_lower fun hempty => not_visits_of_empty hempty hv')
    exact not_visits_second hH hincr hincr' hincr1 hdvd hw hv'

include hil hconv hp hr in
theorem team_empty_fails (hH : 2 ≤ H) (htwo : 2 ≤ T) (hn : n = 0) (hquot : (iu - il).tdiv incr = 1)
    (hcounted : Counted H il iu incr L T) : False := by
  have hL : L = 2 := by
    have hcount := hcounted.count
    rw [hquot, toUnsigned_of_range (by omega) (by omega)] at hcount
    omega
  have hshare : share L T 0 = 1 := by
    rw [hL]
    rcases Nat.lt_or_ge 2 T with hlt | hge
    · exact (of_lt hlt (by omega)).2
    · obtain rfl : T = 2 := by omega
      rfl
  obtain ⟨hlo, hup⟩ := bounds_zero hil hconv hr (by omega) hshare
  have hv : Visits incr (r 0).plower (r 0).pupper lower := by
    rw [hlo, hup]
    exact ⟨0, by simp, by split <;> exact le_refl lower⟩
  obtain ⟨k, hk, -⟩ := hp.only 0 (by omega) _ hv
  omega

end Team

theorem halves (hlower : 0 ≤ lower ∧ lower < 2 * H) (hupper : 0 ≤ upper ∧ upper < 2 * H)
    (hne : toSigned H lower - lower ≠ toSigned H upper - upper) :
    (lower < H ∧ H ≤ upper ∧ toSigned H lower = lower ∧ toSigned H upper = upper - 2 * H) ∨
      (H ≤ lower ∧ upper < H ∧ toSigned H lower = lower - 2 * H ∧ toSigned H upper = upper) := by
  have hsigned : ∀ x : Int, 0 ≤ x ∧ x < 2 * H →
      (x < H ∧ toSigned H x = x) ∨ (H ≤ x ∧ toSigned H x = x - 2 * H) := by
    rintro x ⟨h0, h⟩
    rcases lt_or_ge x (H : Int) with hlt | hge
    · refine Or.inl ⟨hlt, toSigned_of_fits ?_⟩
      unfold Fits
      omega
    · exact Or.inr ⟨hge, toSigned_of_ge hge h⟩
  rcases hsigned lower hlower with ⟨hlt, hil⟩ | ⟨hge, hil⟩ <;>
    rcases hsigned upper hupper with ⟨hlt', hiu⟩ | ⟨hge', hiu⟩ <;>
    omega

/-- What a lone thread with the whole loop and the flag says about its bounds. -/
theorem alone_needs (hil : Fits H il) (hcount : CountFits H il iu incr) (hH : 2 ≤ H) {b : Bounds}
    (hempty : n = 0 → incr = -H ∧ (iu - il).tdiv incr = 1) (hb : staticInitSigned H 1 0 il iu incr = some b)
    (hp : Partition lower n 1 incr r) (hr : b.converted (toUnsigned H) = r 0) :
    0 < n ∧ il + ((iu - il).tdiv incr + 1) * incr - incr = iu ∧ il ≤ iu := by
  rw [signed_alone hil hcount] at hb
  simp only [Option.bind_eq_bind, bind_signed_eq_some, Option.some.injEq] at hb
  obtain ⟨hspan, -, -, rfl⟩ := hb
  have hn : 0 < n := by
    rcases Nat.eq_zero_or_pos n with hn | hn
    · obtain ⟨hmin, hquot⟩ := hempty hn
      rw [hquot, hmin] at hspan
      unfold Fits at hspan
      omega
    · exact hn
  obtain ⟨t, ⟨ht, hv⟩, -⟩ := hp.once (n - 1) (by omega)
  obtain rfl : t = 0 := by omega
  rw [Nat.cast_pred hn] at hv
  have hflag := (hp.flag 0 ht).mpr ⟨hn, hv⟩
  rw [← hr] at hflag
  obtain ⟨hend, hle⟩ := Bool.and_eq_true_iff.mp hflag
  exact ⟨hn, of_decide_eq_true hend, of_decide_eq_true hle⟩

/-- A lone thread with the bounds of the loop. -/
theorem partition_alone (hincr : incr ≠ 0) (hn : 0 < n) (hupper : upper = lower + (n - 1) * incr)
    (pstride : Int) : Partition lower n 1 incr fun _ => ⟨lower, upper, true, pstride⟩ := by
  have hshare : ∀ t, t < 1 → first n 1 t = 0 ∧ share n 1 t = n := by
    intro t ht
    obtain rfl : t = 0 := by omega
    rw [first_zero, share_of_le (by rw [Nat.mod_one]), Nat.div_one]
    exact ⟨rfl, rfl⟩
  apply partition_of_bounds hincr lower Nat.one_pos
  · intro t ht _
    obtain ⟨hfirst, hall⟩ := hshare t ht
    rw [hfirst, hall]
    refine ⟨by simp, ?_, by simp⟩
    rw [Nat.cast_zero, Int.zero_add]
    exact hupper
  · intro t ht hzero
    obtain ⟨-, hall⟩ := hshare t ht
    omega

/-- **Bounds in different halves.**  Only a lone thread runs such a loop right, and only downwards in steps of
a size that divides the number of all values. -/
theorem crossing_partitions_iff (hH : 2 ≤ H) (hT : 0 < T) (hTH : T ≤ H) (hincr : incr ≠ 0)
    (hincr' : Fits H incr) (hupper : upper = lower + (n - 1) * incr) (hlower : 0 ≤ lower ∧ lower < 2 * H)
    (hupper' : 0 ≤ upper ∧ upper < 2 * H) (hne : toSigned H lower - lower ≠ toSigned H upper - upper) :
    Partitions lower n T incr (fun t =>
        (staticInitSigned H T t (toSigned H lower) (toSigned H upper) incr).map
          (Bounds.converted (toUnsigned H))) ↔
      0 < n ∧ T = 1 ∧ incr < 0 ∧ incr ∣ 2 * H ∧ Fits H (toSigned H upper - toSigned H lower) := by
  have hhalves := halves hlower hupper' hne
  have hil : Fits H (toSigned H lower) := fits_toSigned (by omega) _
  have hconv := toUnsigned_toSigned (by omega : 0 < H) hlower.1 hlower.2
  have hconv' := toUnsigned_toSigned (by omega : 0 < H) hupper'.1 hupper'.2
  generalize toSigned H lower = il at *
  generalize toSigned H upper = iu at *
  constructor
  · rintro ⟨r, hcall, hp⟩
    have hsome : ∀ t, t < T → ∃ b, staticInitSigned H T t il iu incr = some b ∧
      b.converted (toUnsigned H) = r t :=
      fun t ht => Option.map_eq_some_iff.mp (hcall t ht)
    obtain ⟨b₀, hb₀, hr₀⟩ := hsome 0 hT
    have hcount := countFits_of_signed hb₀
    have hempty : n = 0 → incr = -H ∧ (iu - il).tdiv incr = 1 := by
      intro hn
      have hbefore : upper = lower - incr := by
        rw [hupper, hn, Nat.cast_zero]
        ring
      exact tdiv_of_empty hH hincr' hbefore hhalves hcount.range
    rcases Nat.lt_or_ge 1 T with htwo | hone
    · exfalso
      obtain ⟨L, hL⟩ := Int.eq_ofNat_of_zero_le
        (toUnsigned_range (by omega : 0 < H) ((iu - il).tdiv incr + 1)).1
      have hcounted := counted_of_team htwo hTH hb₀ hL
      have hspan : ∀ t, t < T → SpanFits H il L T incr t ∧
          r t = convertedBounds H (toUnsigned H) il iu incr L T t := by
        intro t ht
        obtain ⟨b, hb, heq⟩ := hsome t ht
        obtain ⟨hfits, rfl⟩ := (signed_eq_some hcounted).mp hb
        exact ⟨hfits, heq.symm⟩
      rcases Nat.eq_zero_or_pos n with hn | hn
      · exact team_empty_fails hil hconv hp (fun t ht => (hspan t ht).2) hH htwo hn (hempty hn).2 hcounted
      · exact team_fails hil hconv (fun t ht => (hspan t ht).1) hp (fun t ht => (hspan t ht).2) hH htwo hTH
          hincr hincr'
          hn hupper hhalves hlower hupper' hcounted
    · obtain rfl : T = 1 := by omega
      obtain ⟨hn, hend, hle⟩ := alone_needs hil hcount hH hempty hb₀ hp hr₀
      obtain ⟨hneg, hdvd⟩ := dvd_of_alone hn hupper hhalves hend hle hlower hupper'
      exact ⟨hn, rfl, hneg, hdvd, hcount.range⟩
  · rintro ⟨hn, rfl, hneg, hdvd, hrange⟩
    rcases hhalves with ⟨hlt, hge, rfl, rfl⟩ | ⟨hge, hlt, rfl, rfl⟩
    · have hback : ((n : Int) - 1) * incr ≤ 0 := Int.mul_nonpos_of_nonneg_of_nonpos (by omega) hneg.le
      omega
    · obtain ⟨pstride, hcall⟩ := alone_eq hincr' hupper hge hlt hlower hupper' hneg hdvd hrange
      refine ⟨fun _ => ⟨lower, iu, true, pstride⟩, ?_, partition_alone hincr hn hupper pstride⟩
      intro t ht
      obtain rfl : t = 0 := by omega
      show (staticInitSigned H 1 0 (lower - 2 * H) iu incr).map (Bounds.converted (toUnsigned H)) = _
      rw [hcall]
      show some (Bounds.mk (toUnsigned H (lower - 2 * H)) (toUnsigned H iu) true pstride) = _
      rw [hconv, hconv']

end Omp

end CachePool
