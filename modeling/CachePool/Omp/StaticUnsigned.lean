import CachePool.Omp.StaticCrossing

/-!
# `__kmpc_for_static_init_8u`

The trip count is found with unsigned operations, also where the increment is negative.

* `tripCount_*` — what it is.
* `unsigned_partitions_iff` — when the calls of a team partition a loop.
-/

set_option autoImplicit false

namespace CachePool

namespace Omp

open CInt EvenSplit

variable {H n T t L : Nat} {lower upper incr : Int} {r : Nat → Bounds}

/-- The trip count, as the code finds it. -/
def tripCount (H : Nat) (lower upper incr : Int) : Int :=
  toUnsigned H (toUnsigned H (upper - lower) / toUnsigned H incr + 1)

/-! ## The trip count -/

theorem tripCount_of_pos (hpos : 0 < incr) (hincr' : Fits H incr) (hn : 0 < n) (hnH : n < 2 * H)
    (hupper : upper = lower + (n - 1) * incr) (hlower : 0 ≤ lower) (hupper' : upper < 2 * H) :
    tripCount H lower upper incr = n := by
  have hrange : upper - lower = (n - 1) * incr := by
    rw [hupper]
    ring
  have hforth : 0 ≤ ((n : Int) - 1) * incr := Int.mul_nonneg (by omega) hpos.le
  unfold Fits at hincr'
  unfold tripCount
  rw [hrange, toUnsigned_of_range hforth (by omega), toUnsigned_of_range hpos.le (by omega),
    Int.mul_ediv_cancel _ hpos.ne', Int.sub_add_cancel]
  exact toUnsigned_of_range (by omega) (by omega)

/-- Two values below the first one would be further than the increment, as an unsigned number, can count. -/
theorem tripCount_of_neg (hneg : incr < 0) (hincr' : Fits H incr) (hH : 2 ≤ H) (hn : 0 < n)
    (hupper : upper = lower + (n - 1) * incr) (hlower : lower < 2 * H) (hupper' : 0 ≤ upper) :
    tripCount H lower upper incr = if n = 2 then 2 else 1 := by
  have hrange : upper - lower = (n - 1) * incr := by
    rw [hupper]
    ring
  have hincrU : toUnsigned H incr = incr + 2 * H := toUnsigned_of_neg hincr' hneg
  unfold Fits at hincr'
  unfold tripCount
  rw [hrange]
  split
  · next h =>
    have hone : ((n : Int) - 1) * incr = incr := by
      rw [h]
      norm_num
    rw [hone, hincrU, Int.ediv_self (by omega)]
    exact toUnsigned_of_range (by omega) (by omega)
  · next h =>
    have hlt : toUnsigned H (((n : Int) - 1) * incr) < toUnsigned H incr := by
      rcases Nat.eq_or_lt_of_le (show 1 ≤ n from hn) with hone | hmany
      · have hzero : toUnsigned H 0 = 0 := toUnsigned_of_range (le_refl 0) (by omega)
        rw [← hone, Nat.cast_one, Int.sub_self, Int.zero_mul, hzero, hincrU]
        omega
      · have hstep : ((n : Int) - 1) * incr ≤ 2 * incr := Int.mul_le_mul_of_nonpos_right (by omega) hneg.le
        have hwrap : toUnsigned H (((n : Int) - 1) * incr) = (n - 1) * incr + 2 * H :=
          toUnsigned_of_lt (by omega) (by omega)
        rw [hwrap, hincrU]
        omega
    rw [Int.ediv_eq_zero_of_lt (toUnsigned_range (by omega) _).1 hlt]
    exact toUnsigned_of_range (by omega) (by omega)

/-- No iterations and an increment: the way back from the upper bound is counted. -/
theorem tripCount_of_empty_pos (hpos : 0 < incr) (hincr' : Fits H incr) (hupper : upper = lower - incr) :
    tripCount H lower upper incr = toUnsigned H (2 * H / incr) := by
  have hrange : upper - lower = -incr := by omega
  unfold Fits at hincr'
  have hwrap : toUnsigned H (-incr) = 2 * H + -1 * incr := by
    rw [toUnsigned_of_lt (by omega) (by omega)]
    omega
  unfold tripCount
  rw [hrange, hwrap, toUnsigned_of_range hpos.le (by omega), Int.add_mul_ediv_right _ _ hpos.ne']
  congr 1
  omega

theorem tripCount_of_empty_neg (hneg : incr < 0) (hincr' : Fits H incr) (hH : 2 ≤ H)
    (hupper : upper = lower - incr) : tripCount H lower upper incr = if incr = -H then 2 else 1 := by
  have hrange : upper - lower = -incr := by omega
  have hincrU : toUnsigned H incr = incr + 2 * H := toUnsigned_of_neg hincr' hneg
  unfold Fits at hincr'
  have hback : toUnsigned H (-incr) = -incr := toUnsigned_of_range (by omega) (by omega)
  unfold tripCount
  rw [hrange, hincrU, hback]
  split
  · next h =>
    have hself : -incr = incr + 2 * H := by omega
    rw [← hself, Int.ediv_self (by omega)]
    exact toUnsigned_of_range (by omega) (by omega)
  · next h =>
    rw [Int.ediv_eq_zero_of_lt (by omega) (by omega)]
    exact toUnsigned_of_range (by omega) (by omega)

/-! ## The right trip count -/

theorem follows_unsigned (hH : 0 < H) (hupper : upper = lower + (n - 1) * incr)
    (hlower : 0 ≤ lower ∧ lower < 2 * H) (hupper' : 0 ≤ upper ∧ upper < 2 * H) :
    Follows H 0 lower n T incr (unsignedBounds H lower upper incr n T) := by
  have hmem : ∀ x, 0 ≤ toUnsigned H x ∧ toUnsigned H x < 0 + 2 * H := by
    intro x
    have := toUnsigned_range hH x
    omega
  refine ⟨?_, fun t _ => hmem _, fun t _ => hmem _, ?_, ?_, ?_, ?_⟩
  · exact fun k hk => value_mem_of_bounds hupper (by omega) (by omega) hk
  · exact fun t _ => dvd_toUnsigned_sub H _
  · exact fun t _ => dvd_toUnsigned_sub H _
  · intro t _ hflag
    exact (of_decide_eq_true (Bool.and_eq_true_iff.mp hflag).1).trans hupper
  · intro t _ k _ _
    show (decide _ && decide _) = true ↔ _
    rw [Bool.and_eq_true_iff, decide_eq_true_iff, decide_eq_true_iff, hupper]
    rfl

theorem unsigned_some (hT : 0 < T) (hTH : T ≤ H) (hcount : tripCount H lower upper incr = L)
    {b : Bounds} : staticInitUnsigned H T t lower upper incr = some b ↔
      ProductsFit H L T incr t ∧ b = unsignedBounds H lower upper incr L T t := by
  have hL := (toUnsigned_range (by omega : 0 < H) (toUnsigned H (upper - lower) / toUnsigned H incr + 1)).2
  have hcount' : toUnsigned H (toUnsigned H (upper - lower) / toUnsigned H incr + 1) = L := hcount
  rw [hcount'] at hL
  exact unsigned_eq_some hT hTH (by omega) hcount'

/-- Where the threads without iterations begin. -/
def idleBeginUnsigned (H : Nat) (lower : Int) (n : Nat) : Int := toUnsigned H (lower + n)

theorem idle_unsigned_iff (hlt : n < T) (hincr : incr ≠ 0) :
    (∀ t, n ≤ t → t < T → Empty incr (unsignedBounds H lower upper incr n T t).plower
        (unsignedBounds H lower upper incr n T t).pupper ∧
      (unsignedBounds H lower upper incr n T t).plastiter = false) ↔
    Empty incr (idleBeginUnsigned H lower n) (toUnsigned H (idleBeginUnsigned H lower n - incr)) ∧
      (incr < 0 → toUnsigned H (idleBeginUnsigned H lower n - incr) ≠ upper) := by
  have hbounds : ∀ t, n ≤ t → unsignedBounds H lower upper incr n T t = ⟨idleBeginUnsigned H lower n,
      toUnsigned H (idleBeginUnsigned H lower n - incr),
      decide (toUnsigned H (idleBeginUnsigned H lower n - incr) = upper) &&
        decide (idleBeginUnsigned H lower n ≤ upper), toSigned H n⟩ := by
    intro t hn
    have hmod := Nat.mod_eq_of_lt hlt
    have hoffset : offset n T incr t = n := by
      rw [offset_of_le (by omega), hmod, Nat.div_eq_of_lt hlt]
      simp
    have hshare : share n T t = 0 := (share_eq_zero_iff (by omega)).mpr ⟨hlt, hn⟩
    unfold unsignedBounds beginUnsigned idleBeginUnsigned
    rw [hoffset, hshare]
    simp
  constructor
  · intro h
    have hidle := h n (Nat.le_refl n) hlt
    rw [hbounds n (Nat.le_refl n)] at hidle
    obtain ⟨hempty, hflag⟩ := hidle
    refine ⟨hempty, ?_⟩
    intro hneg heq
    rw [Bool.and_eq_false_iff, decide_eq_false_iff_not, decide_eq_false_iff_not] at hflag
    unfold Empty at hempty
    rw [if_neg (by omega)] at hempty
    simp only at hempty
    omega
  · rintro ⟨hempty, hne⟩ t hn -
    rw [hbounds t hn]
    refine ⟨hempty, ?_⟩
    rw [Bool.and_eq_false_iff, decide_eq_false_iff_not, decide_eq_false_iff_not]
    unfold Empty at hempty
    by_cases heq : toUnsigned H (idleBeginUnsigned H lower n - incr) = upper
    · right
      have hpos : ¬ incr < 0 := fun hneg => hne hneg heq
      rw [if_pos (by omega)] at hempty
      omega
    · exact Or.inl heq

theorem counted_partitions_iff (hT : 0 < T) (hTH : T ≤ H) (hincr : incr ≠ 0)
    (hupper : upper = lower + (n - 1) * incr) (hlower : 0 ≤ lower ∧ lower < 2 * H)
    (hupper' : 0 ≤ upper ∧ upper < 2 * H) (hcount : tripCount H lower upper incr = n) :
    Partitions lower n T incr (fun t => staticInitUnsigned H T t lower upper incr) ↔
      (∀ t, t < T → ProductsFit H n T incr t) ∧
      (n < T → Empty incr (idleBeginUnsigned H lower n) (toUnsigned H (idleBeginUnsigned H lower n - incr)) ∧
        (incr < 0 → toUnsigned H (idleBeginUnsigned H lower n - incr) ≠ upper)) ∧
      (T ≤ n → (T ∣ n ∨ incr = 1) ∧ (0 < incr ∨ n = T)) := by
  have hiff := (follows_unsigned (T := T) (by omega : 0 < H) hupper hlower hupper').partition_iff hincr hT
  constructor
  · rintro ⟨r, hcall, hp⟩
    have hr : ∀ t, t < T → ProductsFit H n T incr t ∧ r t = unsignedBounds H lower upper incr n T t :=
      fun t ht => (unsigned_some hT hTH hcount).mp (hcall t ht)
    have hcond := hiff.mp (hp.congr fun t ht => (hr t ht).2)
    refine ⟨fun t ht => (hr t ht).1, ?_, ?_⟩
    · intro hlt
      rwa [if_pos hlt, idle_unsigned_iff hlt hincr] at hcond
    · intro hle
      rwa [if_neg (Nat.not_lt.mpr hle)] at hcond
  · rintro ⟨hproducts, hidle, hbusy⟩
    refine ⟨unsignedBounds H lower upper incr n T, ?_, hiff.mpr ?_⟩
    · exact fun t ht => (unsigned_some hT hTH hcount).mpr ⟨hproducts t ht, rfl⟩
    · split
      · next hlt => exact (idle_unsigned_iff hlt hincr).mpr (hidle hlt)
      · next hge => exact hbusy (Nat.not_lt.mp hge)

/-! ## A wrong trip count -/

theorem beginUnsigned_zero (hlower : 0 ≤ lower ∧ lower < 2 * H) :
    beginUnsigned H lower L T incr 0 = lower := by
  unfold beginUnsigned
  rw [offset_zero, Int.add_zero]
  exact toUnsigned_of_range hlower.1 hlower.2

/-- A first thread with one iteration has the first value and no other. -/
theorem unsignedBounds_zero (hlower : 0 ≤ lower ∧ lower < 2 * H) (hone : share L T 0 = 1) :
    (unsignedBounds H lower upper incr L T 0).plower = lower ∧
      (unsignedBounds H lower upper incr L T 0).pupper = lower := by
  refine ⟨beginUnsigned_zero hlower, ?_⟩
  show toUnsigned H (beginUnsigned H lower L T incr 0 + share L T 0 * incr - incr) = lower
  rw [beginUnsigned_zero hlower, hone, Nat.cast_one, Int.one_mul, Int.add_sub_cancel]
  exact toUnsigned_of_range hlower.1 hlower.2

theorem share_one_zero (hT : 0 < T) : share 1 T 0 = 1 := by
  rcases Nat.lt_or_ge 1 T with hlt | hge
  · exact (of_lt hlt Nat.one_pos).2
  · obtain rfl : T = 1 := by omega
    rfl

section Wrong

variable (hp : Partition lower n T incr r)
  (hr : ∀ t, t < T → ProductsFit H L T incr t ∧ r t = unsignedBounds H lower upper incr L T t)
  (hlower : 0 ≤ lower ∧ lower < 2 * H) (hincr' : Fits H incr)

include hp hr hlower

/-- A loop without iterations, of which the first thread runs one. -/
theorem empty_fails (hn : n = 0) (hT : 0 < T) (hone : share L T 0 = 1) : False := by
  obtain ⟨hlo, hup⟩ := unsignedBounds_zero hlower hone
  have hv : Visits incr (r 0).plower (r 0).pupper lower := by
    rw [(hr 0 hT).2, hlo, hup]
    exact ⟨0, by simp, by split <;> exact le_refl lower⟩
  obtain ⟨k, hk, -⟩ := hp.only 0 hT _ hv
  omega

theorem empty_neg_fails (hH : 3 ≤ H) (hT : 0 < T) (hn : n = 0)
    (hL : L = if incr = -H then 2 else 1) : False := by
  split at hL
  · next hmin =>
    rcases Nat.lt_or_ge 2 T with hlt | hge
    · exact empty_fails hp hr hlower hn hT (by rw [hL]; exact (of_lt hlt (by omega)).2)
    · rcases Nat.lt_or_ge 1 T with htwo | hone
      · obtain rfl : T = 2 := by omega
        exact empty_fails hp hr hlower hn hT (by rw [hL]; rfl)
      · obtain rfl : T = 1 := by omega
        have hfits : Fits H 2 := by
          unfold Fits
          omega
        have hspan := (hr 0 hT).1.span
        unfold chunkUnsigned at hspan
        rw [hL, hmin, if_neg (by omega), Nat.div_one, Nat.cast_ofNat, toSigned_of_fits hfits] at hspan
        unfold Fits at hspan
        omega
  · exact empty_fails hp hr hlower hn hT (by rw [hL]; exact share_one_zero hT)

/-- Two threads or more: the first one wraps around, or else its bounds are not empty, and then the last one
does not. -/
theorem empty_team_fails (htwo : 2 ≤ T) (hTH : 2 * T ≤ H) (hincr : 2 ≤ incr) (hn : n = 0) (hle : T ≤ L)
    (hLH : L ≤ H) : False := by
  have hempty : ∀ t, t < T → Empty incr (r t).plower (r t).pupper := by
    intro t ht
    by_contra hnot
    obtain ⟨k, hk, -⟩ := hp.only t ht _ (visits_lower hnot)
    omega
  have hmod : L % T < T := Nat.mod_lt L (by omega)
  have hshare : share L T (T - 1) = L / T := share_of_le (by omega)
  have hoffset : offset L T incr (T - 1) = ((T - 1 : Nat) : Int) * (L / T : Nat) * incr + (L % T : Nat) :=
    offset_of_le (by omega)
  have hfirst : L / T ≤ share L T 0 ∧ share L T 0 ≤ L / T + 1 := by
    unfold share
    split <;> omega
  have hq : 0 < L / T := Nat.div_pos hle (by omega)
  have hqH : L / T < H := lt_of_lt_of_le (Nat.div_lt_self (by omega) (by omega)) hLH
  have hproduct := (hr (T - 1) (by omega)).1.offset
  have hzero := hempty 0 (by omega)
  have hlast := hempty (T - 1) (by omega)
  rw [(hr 0 (by omega)).2] at hzero
  rw [(hr (T - 1) (by omega)).2] at hlast
  unfold chunkUnsigned at hproduct
  rw [if_neg (by omega), toSigned_of_fits (by generalize L / T = q at hqH; unfold Fits; omega)] at hproduct
  simp only [unsignedBounds, beginUnsigned_zero hlower, Empty, if_pos (by omega : 0 < incr)] at hzero
  simp only [unsignedBounds, beginUnsigned, hoffset, hshare, Empty, if_pos (by omega : 0 < incr)] at hlast
  generalize L / T = q at *
  generalize L % T = rest at *
  generalize share L T 0 = s at *
  have hspan : 1 * incr ≤ (q : Int) * incr := Int.mul_le_mul_of_nonneg_right (by omega) (by omega)
  have hspan₀ : 1 * incr ≤ (s : Int) * incr := Int.mul_le_mul_of_nonneg_right (by omega) (by omega)
  have hspan₀' : (s : Int) * incr ≤ (q + 1) * incr := Int.mul_le_mul_of_nonneg_right (by omega) (by omega)
  have hteam : ((T - 1 : Nat) : Int) * q * incr = ((T - 1 : Nat) : Int) * (q * incr) := Int.mul_assoc _ _ _
  have hback : (T = 2 ∧ ((T - 1 : Nat) : Int) * q * incr = q * incr) ∨
      (3 ≤ T ∧ 2 * (q * incr) ≤ ((T - 1 : Nat) : Int) * q * incr) := by
    rcases Nat.eq_or_lt_of_le htwo with heq | hlt
    · subst heq
      exact Or.inl ⟨rfl, by simp⟩
    · rw [hteam]
      exact Or.inr ⟨hlt, Int.mul_le_mul_of_nonneg_right (by omega) (by omega)⟩
  rw [Int.add_mul] at hspan₀'
  unfold Fits at hproduct
  generalize ((T - 1 : Nat) : Int) * q * incr = offset at *
  generalize (q : Int) * incr = span at *
  have hwrap₀ : 2 * H ≤ lower + s * incr - incr := by
    by_contra hlt
    rw [toUnsigned_of_range (by omega) (by omega)] at hzero
    omega
  have hbegin : toUnsigned H (lower + (offset + rest)) = lower + (offset + rest) - 2 * H :=
    toUnsigned_of_ge (by omega) (by omega)
  rw [hbegin, toUnsigned_of_range (by omega) (by omega)] at hlast
  omega

include hincr'

theorem empty_pos_fails (hT : 0 < T) (hTH : 2 * T ≤ H) (hincr : 2 ≤ incr) (hn : n = 0)
    (hL : (L : Int) = 2 * H / incr) : False := by
  unfold Fits at hincr'
  have hmul : (L : Int) * incr ≤ 2 * H := by
    rw [hL]
    exact Int.ediv_mul_le _ (by omega)
  have hnext : 2 * (H : Int) < (L + 1) * incr := by
    rw [hL]
    exact Int.lt_ediv_add_one_mul_self _ (by omega)
  have htwice : (L : Int) * 2 ≤ L * incr := Int.mul_le_mul_of_nonneg_left hincr (Int.natCast_nonneg L)
  rw [Int.add_mul] at hnext
  rcases Nat.lt_or_ge L T with hlt | hge
  · refine empty_fails hp hr hlower hn hT (of_lt hlt ?_).2
    by_contra hzero
    rw [show L = 0 by omega, Nat.cast_zero, Int.zero_mul] at hnext
    omega
  · rcases Nat.lt_or_ge 1 T with htwo | hone
    · exact empty_team_fails hp hr hlower htwo hTH hincr hn hge (by omega)
    · obtain rfl : T = 1 := by omega
      have hspan := (hr 0 hT).1.span
      unfold chunkUnsigned at hspan
      rw [if_neg (by omega), Nat.div_one] at hspan
      rcases Nat.lt_or_ge L H with hlt | hge
      · rw [toSigned_of_fits (by unfold Fits; omega)] at hspan
        unfold Fits at hspan
        omega
      · have hLH : (L : Int) = H := by omega
        have hstep : (-(H : Int)) * incr ≤ -H * 2 := Int.mul_le_mul_of_nonpos_left (by omega) hincr
        rw [toSigned_of_ge (by omega) (by omega), hLH, show (H : Int) - 2 * H = -H by ring] at hspan
        unfold Fits at hspan
        omega

/-- Downwards, one iteration is found instead of three or more. -/
theorem downwards_fails (hH : 2 ≤ H) (hT : 0 < T) (hneg : incr < 0) (hn : 3 ≤ n) (hL : L = 1) : False := by
  obtain ⟨t, ⟨ht, hv⟩, -⟩ := hp.once 1 (by omega)
  rw [Nat.cast_one, Int.one_mul] at hv
  subst hL
  rcases Nat.eq_zero_or_pos t with rfl | hpos
  · obtain ⟨hlo, hup⟩ := unsignedBounds_zero hlower (share_one_zero hT)
    rw [(hr 0 ht).2, hlo, hup] at hv
    obtain ⟨j, hj, hle⟩ := hv
    rw [if_neg (by omega)] at hle
    omega
  · have hmod := Nat.mod_eq_of_lt (by omega : 1 < T)
    have hoffset : offset 1 T incr t = 1 := by
      rw [offset_of_le (by omega), hmod, Nat.div_eq_of_lt (by omega)]
      simp
    have hdvd : (2 * H : Int) ∣ (r t).plower - (lower + 1) := by
      have hbegin := dvd_toUnsigned_sub H (lower + offset 1 T incr t)
      rw [hoffset] at hbegin
      rw [(hr t ht).2]
      show (2 * H : Int) ∣ toUnsigned H (lower + offset 1 T incr t) - (lower + 1)
      rwa [hoffset]
    obtain ⟨k, -, hw⟩ := hp.only t ht _ (visits_lower fun hempty => not_visits_of_empty hempty hv)
    exact not_visits_second hH (by omega) hincr' (by omega) hdvd hw hv

end Wrong

/-! ## All the values there are -/

/-- The trip count of a loop over all values wraps around to zero. -/
theorem tripCount_of_all (hH : 0 < H) (hn : n = 2 * H) (hupper : upper = lower + (n - 1) * incr)
    (hpos : 0 < incr) (hlower : 0 ≤ lower) (hupper' : upper < 2 * H) :
    incr = 1 ∧ lower = 0 ∧ upper = 2 * H - 1 ∧ tripCount H lower upper incr = 0 := by
  have hnInt : (n : Int) = 2 * H := by omega
  rw [hnInt] at hupper
  have hstep : (2 * (H : Int) - 1) * 1 ≤ (2 * H - 1) * incr :=
    Int.mul_le_mul_of_nonneg_left (by omega) (by omega)
  have hone : incr = 1 := by
    by_contra hne
    have hmore : (2 * (H : Int) - 1) * 2 ≤ (2 * H - 1) * incr :=
      Int.mul_le_mul_of_nonneg_left (by omega) (by omega)
    omega
  subst hone
  obtain rfl : lower = 0 := by omega
  obtain rfl : upper = 2 * H - 1 := by omega
  refine ⟨rfl, rfl, rfl, ?_⟩
  have hrange : toUnsigned H (2 * H - 1) = 2 * H - 1 := toUnsigned_of_range (by omega) (by omega)
  have hincr : toUnsigned H 1 = 1 := toUnsigned_of_range (by omega) (by omega)
  have hwrap : toUnsigned H (2 * H) = toUnsigned H 0 := toUnsigned_congr ⟨1, by ring⟩
  unfold tripCount
  rw [Int.sub_zero, hrange, hincr, Int.ediv_one, Int.sub_add_cancel, hwrap]
  exact toUnsigned_of_range (by omega) (by omega)

/-- The products of a lone thread that runs over all values. -/
theorem productsFit_of_all (hH : 0 < H) (hn : n = 2 * H) : ProductsFit H n 1 1 0 := by
  have hzero : Fits H 0 := by
    unfold Fits
    omega
  have hchunk : toSigned H ((n / 1 : Nat) : Int) = 0 := by
    have hcongr : toSigned H ((n / 1 : Nat) : Int) = toSigned H 0 := by
      apply toSigned_congr
      rw [Nat.div_one, hn]
      exact ⟨1, by push_cast; ring⟩
    rw [hcongr, toSigned_of_fits hzero]
  have hchunk' : chunkUnsigned H n 1 0 = 0 := by
    unfold chunkUnsigned
    rw [if_neg (by omega), hchunk]
  constructor
  · rw [hchunk]
    simpa using hzero
  all_goals
    rw [hchunk']
    simpa using hzero

/-- In a team, the chunks of a loop over all values do not fit. -/
theorem not_productsFit_of_all (htwo : 2 ≤ T) (hTH : T < H) (hn : n = 2 * H) :
    ¬ ProductsFit H n T incr t := by
  intro h
  have hproduct := h.product
  have hmul : n / T * T + n % T = n := Nat.div_add_mod' n T
  have hrem : n % T < T := Nat.mod_lt n (by omega)
  rcases Nat.eq_or_lt_of_le htwo with heq | hthree
  · subst heq
    have hhalf : ((n / 2 : Nat) : Int) = H := by omega
    rw [hhalf, toSigned_of_ge (le_refl _) (by omega)] at hproduct
    unfold Fits at hproduct
    omega
  · have hle : n / T * 3 ≤ n / T * T := Nat.mul_le_mul_left _ hthree
    have hprodInt : ((n / T : Nat) : Int) * T = (n / T * T : Nat) := (Nat.cast_mul _ _).symm
    have hfits : Fits H ((n / T : Nat) : Int) := by
      generalize n / T * T = product at *
      generalize n / T = chunk at *
      unfold Fits
      omega
    rw [toSigned_of_fits hfits, hprodInt] at hproduct
    generalize n / T * T = product at *
    unfold Fits at hproduct
    omega

theorem all_alone (hH : 0 < H) (hn : n = 2 * H) (hcount : tripCount H 0 (2 * H - 1) 1 = 0) :
    Partitions 0 n 1 1 (fun t => staticInitUnsigned H 1 t 0 (2 * H - 1) 1) := by
  have hzero : Fits H 0 := by
    unfold Fits
    omega
  have hchunk : chunkUnsigned H 0 1 0 = 0 := by
    unfold chunkUnsigned
    rw [if_neg (by omega), Nat.zero_div, Nat.cast_zero, toSigned_of_fits hzero]
  have hproducts : ProductsFit H 0 1 1 0 := by
    constructor
    · rw [Nat.zero_div, Nat.cast_zero, toSigned_of_fits hzero]
      simpa using hzero
    all_goals
      rw [hchunk]
      simpa using hzero
  have hshare : share 0 1 0 = 0 := rfl
  have hpupper : toUnsigned H (0 + ((0 : Nat) : Int) * 1 - 1) = 2 * H - 1 := by
    rw [toUnsigned_of_lt (by omega) (by omega)]
    omega
  refine ⟨fun _ => ⟨0, 2 * H - 1, true, toSigned H (0 : Nat)⟩, ?_, partition_alone (by omega) (by omega) ?_ _⟩
  · intro t ht
    obtain rfl : t = 0 := by omega
    refine (unsigned_some (L := 0) Nat.one_pos hH hcount).mpr ⟨hproducts, ?_⟩
    unfold unsignedBounds
    rw [beginUnsigned_zero (by omega), hshare, hpupper]
    simp
    omega
  · rw [hn]
    push_cast
    ring

theorem all_team_fails (hH : 0 < H) (hn : n = 2 * H) (htwo : 2 ≤ T) (hTH : T ≤ H)
    (hcount : tripCount H lower upper incr = 0) :
    ¬ Partitions lower n T incr (fun t => staticInitUnsigned H T t lower upper incr) := by
  rintro ⟨r, hcall, hp⟩
  have hr : ∀ t, t < T → r t = unsignedBounds H lower upper incr 0 T 0 := by
    intro t ht
    have hbounds : unsignedBounds H lower upper incr 0 T t = unsignedBounds H lower upper incr 0 T 0 := by
      have hmod : 0 % T ≤ t := by simp
      have hoffset : offset 0 T incr t = 0 := by
        rw [offset_of_le hmod]
        simp
      have hshare : share 0 T t = share 0 T 0 := by rw [share_of_le hmod, share_of_le (by simp)]
      unfold unsignedBounds beginUnsigned
      rw [hoffset, offset_zero, hshare]
    rw [← hbounds]
    exact ((unsigned_some (L := 0) (by omega) hTH hcount).mp (hcall t ht)).2
  obtain ⟨t, ⟨ht, hv⟩, -⟩ := hp.once 0 (by omega)
  have htwin : ∀ t', t' < T → t ≠ t' → False := by
    intro t' ht' hne
    exact hp.not_visits_of_twin ht ht' hne (by rw [hr t ht, hr t' ht']) (by rw [hr t ht, hr t' ht']) _ hv
  rcases Nat.eq_zero_or_pos t with rfl | hpos
  · exact htwin 1 (by omega) (by omega)
  · exact htwin 0 (by omega) (by omega)

/-! ## The condition on the loop -/

/-- The loop with `n` iterations from `lower` on is one that `kmp_sch_static` splits among `T` threads: its
trip count is found, the products fit, the idle threads have empty bounds without the flag, and the remainder
does no harm. -/
structure SplitsUnsigned (H : Nat) (lower upper : Int) (n T : Nat) (incr : Int) : Prop where
  count : (0 < incr ∧ (0 < n ∨ incr = 1)) ∨ (incr < 0 ∧ (n = 1 ∨ n = 2))
  products : ∀ t, t < T → ProductsFit H n T incr t
  idle : n < T → Empty incr (idleBeginUnsigned H lower n)
    (toUnsigned H (idleBeginUnsigned H lower n - incr)) ∧
    (incr < 0 → toUnsigned H (idleBeginUnsigned H lower n - incr) ≠ upper)
  busy : T ≤ n → (T ∣ n ∨ incr = 1) ∧ (0 < incr ∨ n = T)

theorem splitsUnsigned_iff (hcount : (0 < incr ∧ (0 < n ∨ incr = 1)) ∨ (incr < 0 ∧ (n = 1 ∨ n = 2))) :
    SplitsUnsigned H lower upper n T incr ↔
      (∀ t, t < T → ProductsFit H n T incr t) ∧
      (n < T → Empty incr (idleBeginUnsigned H lower n) (toUnsigned H (idleBeginUnsigned H lower n - incr)) ∧
        (incr < 0 → toUnsigned H (idleBeginUnsigned H lower n - incr) ≠ upper)) ∧
      (T ≤ n → (T ∣ n ∨ incr = 1) ∧ (0 < incr ∨ n = T)) :=
  ⟨fun h => ⟨h.products, h.idle, h.busy⟩, fun h => ⟨hcount, h.1, h.2.1, h.2.2⟩⟩

/-- Where the code finds the trip count. -/
theorem tripCount_eq (hH : 2 ≤ H) (hincr' : Fits H incr) (hupper : upper = lower + (n - 1) * incr)
    (hlower : 0 ≤ lower ∧ lower < 2 * H) (hupper' : 0 ≤ upper ∧ upper < 2 * H) (hnH : n < 2 * H)
    (hcount : (0 < incr ∧ (0 < n ∨ incr = 1)) ∨ (incr < 0 ∧ (n = 1 ∨ n = 2))) :
    tripCount H lower upper incr = n := by
  rcases hcount with ⟨hpos, hn⟩ | ⟨hneg, hn⟩
  · rcases Nat.eq_zero_or_pos n with rfl | hn'
    · obtain rfl : incr = 1 := by omega
      have hbefore : upper = lower - 1 := by
        rw [hupper, Nat.cast_zero]
        ring
      have hwrap : toUnsigned H (2 * H) = toUnsigned H 0 := toUnsigned_congr ⟨1, by ring⟩
      rw [tripCount_of_empty_pos Int.one_pos hincr' hbefore, Int.ediv_one, hwrap]
      exact toUnsigned_of_range (by omega) (by omega)
    · exact tripCount_of_pos hpos hincr' hn' hnH hupper hlower.1 hupper'.2
  · rw [tripCount_of_neg hneg hincr' hH (by omega) hupper hlower.2 hupper'.1]
    rcases hn with rfl | rfl <;> rfl

/-- Where it does not. -/
theorem wrong_count_fails (hH : 3 ≤ H) (hT : 0 < T) (hTH : 2 * T ≤ H) (hincr : incr ≠ 0)
    (hincr' : Fits H incr) (hupper : upper = lower + (n - 1) * incr) (hlower : 0 ≤ lower ∧ lower < 2 * H)
    (hupper' : 0 ≤ upper ∧ upper < 2 * H)
    (hcount : ¬ ((0 < incr ∧ (0 < n ∨ incr = 1)) ∨ (incr < 0 ∧ (n = 1 ∨ n = 2)))) :
    ¬ Partitions lower n T incr (fun t => staticInitUnsigned H T t lower upper incr) := by
  rintro ⟨r, hcall, hp⟩
  have hr : ∀ L : Nat, tripCount H lower upper incr = L → ∀ t, t < T →
      ProductsFit H L T incr t ∧ r t = unsignedBounds H lower upper incr L T t :=
    fun L hL t ht => (unsigned_some hT (by omega) hL).mp (hcall t ht)
  rcases Nat.eq_zero_or_pos n with hn | hn
  · have hbefore : upper = lower - incr := by
      rw [hupper, hn, Nat.cast_zero]
      ring
    rcases Int.lt_or_gt_of_ne hincr with hneg | hpos
    · have hL := tripCount_of_empty_neg hneg hincr' (by omega) hbefore
      have hL' : tripCount H lower upper incr = ((if incr = -H then 2 else 1 : Nat) : Int) := by
        rw [hL]
        split <;> rfl
      exact empty_neg_fails hp (hr _ hL') hlower hH hT hn rfl
    · have hL := tripCount_of_empty_pos hpos hincr' hbefore
      have hge : 0 ≤ 2 * (H : Int) / incr := Int.ediv_nonneg (by omega) hpos.le
      have hmul : 2 * (H : Int) / incr * incr ≤ 2 * H := Int.ediv_mul_le _ (by omega)
      have htwice : 2 * (H : Int) / incr * 2 ≤ 2 * H / incr * incr :=
        Int.mul_le_mul_of_nonneg_left (by omega) hge
      rw [toUnsigned_of_range hge (by omega)] at hL
      obtain ⟨L, hL'⟩ := Int.eq_ofNat_of_zero_le hge
      exact empty_pos_fails hp (hr L (hL.trans hL')) hlower hincr' hT hTH (by omega) hn hL'.symm
  · have hneg : incr < 0 := by omega
    have hL := tripCount_of_neg hneg hincr' (by omega) hn hupper hlower.2 hupper'.1
    rw [if_neg (by omega)] at hL
    exact downwards_fails hp (hr 1 hL) hlower hincr' (by omega) hT hneg (by omega) rfl

theorem unsigned_partitions_iff (hH : 3 ≤ H) (hT : 0 < T) (hTH : 2 * T ≤ H) (hincr : incr ≠ 0)
    (hincr' : Fits H incr) (hupper : upper = lower + (n - 1) * incr) (hlower : 0 ≤ lower ∧ lower < 2 * H)
    (hupper' : 0 ≤ upper ∧ upper < 2 * H) :
    Partitions lower n T incr (fun t => staticInitUnsigned H T t lower upper incr) ↔
      SplitsUnsigned H lower upper n T incr := by
  by_cases hcount : (0 < incr ∧ (0 < n ∨ incr = 1)) ∨ (incr < 0 ∧ (n = 1 ∨ n = 2))
  · rcases Nat.lt_or_ge n (2 * H) with hnH | hge
    · rw [counted_partitions_iff hT (by omega) hincr hupper hlower hupper'
        (tripCount_eq (by omega) hincr' hupper hlower hupper' hnH hcount), splitsUnsigned_iff hcount]
    · have hpos : 0 < incr := by omega
      have hn : n = 2 * H := by
        have hstep : ((n : Int) - 1) * 1 ≤ (n - 1) * incr :=
          Int.mul_le_mul_of_nonneg_left (by omega) (by omega)
        omega
      obtain ⟨rfl, rfl, rfl, hzero⟩ := tripCount_of_all (by omega) hn hupper hpos hlower.1 hupper'.2
      rcases Nat.lt_or_ge 1 T with htwo | hone
      · refine iff_of_false (all_team_fails (by omega) hn htwo (by omega) hzero) ?_
        intro h
        exact not_productsFit_of_all htwo (by omega) hn (h.products 0 hT)
      · obtain rfl : T = 1 := by omega
        refine iff_of_true (all_alone (by omega) hn hzero) ⟨hcount, ?_, by omega, by simp⟩
        intro t ht
        obtain rfl : t = 0 := by omega
        exact productsFit_of_all (by omega) hn
  · have hfails := wrong_count_fails hH hT hTH hincr hincr' hupper hlower hupper' hcount
    exact iff_of_false hfails fun h => hcount h.count

end Omp

end CachePool
