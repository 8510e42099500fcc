import CachePool.Omp.StaticShares

/-!
# `__kmpc_for_static_init_4` and `_4u`

* `forStaticInit4_partitions_iff` — when the calls of a team partition a loop with signed bounds.
* `forStaticInit4u_partitions_iff` — the same for unsigned bounds, which the function converts, calls the
  other and converts the results.
-/

set_option autoImplicit false

namespace CachePool

namespace Omp

open CInt EvenSplit

variable {H n T t : Nat} {base il iu lower incr : Int} {conv : Int → Int} {r r' : Nat → Bounds}

theorem Partition.congr (h : Partition lower n T incr r) (heq : ∀ t, t < T → r t = r' t) :
    Partition lower n T incr r' := by
  refine ⟨?_, ?_, ?_⟩
  · intro k hk
    obtain ⟨t, ⟨ht, hv⟩, huniq⟩ := h.once k hk
    refine ⟨t, ⟨ht, by rwa [← heq t ht]⟩, ?_⟩
    rintro t' ⟨ht', hv'⟩
    exact huniq t' ⟨ht', by rwa [heq t' ht']⟩
  · intro t ht v hv
    exact h.only t ht v (by rwa [heq t ht])
  · intro t ht
    rw [← heq t ht]
    exact h.flag t ht

/-! ## Converted results -/

/-- The bounds in another type. -/
def Bounds.converted (conv : Int → Int) (r : Bounds) : Bounds :=
  { r with plower := conv r.plower, pupper := conv r.pupper }

/-- A conversion to the type with the values from `base` on. -/
structure Conversion (H : Nat) (base : Int) (conv : Int → Int) : Prop where
  dvd : ∀ x, (2 * H : Int) ∣ conv x - x
  mem : ∀ x, Fits H x → base ≤ conv x ∧ conv x < base + 2 * H

theorem Conversion.eq (h : Conversion H base conv) {x y : Int} (hx : Fits H x) (hdvd : (2 * H : Int) ∣ x - y)
    (hy : base ≤ y ∧ y < base + 2 * H) : conv x = y := by
  have hmem := h.mem x hx
  have hsum : (2 * H : Int) ∣ conv x - y := by
    have := dvd_add (h.dvd x) hdvd
    rwa [sub_add_sub_cancel] at this
  exact eq_of_dvd hsum (by omega) (by omega)

theorem Conversion.injective (h : Conversion H base conv) {x y : Int} (hx : Fits H x) (hy : Fits H y)
    (heq : conv x = conv y) : x = y := by
  have hdiff := dvd_sub (h.dvd y) (h.dvd x)
  rw [heq, sub_sub_sub_cancel_left] at hdiff
  unfold Fits at *
  exact eq_of_dvd hdiff (by omega) (by omega)

/-- What thread `t` gets from the signed case, converted. -/
def convertedBounds (H : Nat) (conv : Int → Int) (il iu incr : Int) (n T t : Nat) : Bounds :=
  (signedBounds H il iu incr n T t).converted conv

theorem follows_converted (hconv : Conversion H base conv) (hH : 0 < H)
    (hiu : iu = il + (n - 1) * incr) (hil : Fits H il) (hiu' : Fits H iu) (hlower : conv il = lower)
    (hupper : conv iu = lower + (n - 1) * incr) (hspan : ∀ t, t < T → SpanFits H il n T incr t) :
    Follows H base lower n T incr (convertedBounds H conv il iu incr n T) := by
  have hshift : (2 * H : Int) ∣ il - lower := by
    rw [← hlower]
    exact (dvd_sub_comm).mp (hconv.dvd il)
  have hvalueFits : ∀ k : Nat, k < n → Fits H (il + k * incr) := by
    intro k hk
    apply fits_of_le (m := n - 1) hil _ (by omega)
    rw [Nat.cast_pred (by omega), ← hiu]
    exact hiu'
  have hvalue : ∀ k : Nat, k < n → base ≤ lower + k * incr ∧ lower + k * incr < base + 2 * H :=
    fun k hk => value_mem_of_bounds rfl (hlower ▸ hconv.mem il hil) (hupper ▸ hconv.mem iu hiu') hk
  have hconvValue : ∀ k : Nat, k < n → conv (il + k * incr) = lower + k * incr := by
    intro k hk
    apply hconv.eq (hvalueFits k hk) _ (hvalue k hk)
    rwa [add_sub_add_right_eq_sub]
  refine ⟨hvalue, ?_, ?_, ?_, ?_, ?_, ?_⟩
  · exact fun t ht => hconv.mem _ (fits_toSigned hH _)
  · exact fun t ht => hconv.mem _ (hspan t ht).pupper
  · intro t ht
    have hbegin := dvd_add (hconv.dvd (beginSigned H il n T incr t))
      (dvd_toSigned_sub H (il + offset n T incr t))
    have hsum := dvd_add hbegin hshift
    have hdiff : conv (beginSigned H il n T incr t) - beginSigned H il n T incr t +
        (toSigned H (il + offset n T incr t) - (il + offset n T incr t)) + (il - lower) =
        conv (beginSigned H il n T incr t) - (lower + offset n T incr t) := by
      unfold beginSigned
      ring
    rwa [hdiff] at hsum
  · intro t ht
    have hsub := dvd_sub (hconv.dvd (beginSigned H il n T incr t + share n T t * incr - incr))
      (hconv.dvd (beginSigned H il n T incr t))
    have hdiff : conv (beginSigned H il n T incr t + share n T t * incr - incr) -
        (beginSigned H il n T incr t + share n T t * incr - incr) -
        (conv (beginSigned H il n T incr t) - beginSigned H il n T incr t) =
        conv (beginSigned H il n T incr t + share n T t * incr - incr) -
          (conv (beginSigned H il n T incr t) + share n T t * incr - incr) := by ring
    rwa [hdiff] at hsub
  · intro t ht hflag
    have hpupper : beginSigned H il n T incr t + share n T t * incr - incr = iu :=
      of_decide_eq_true (Bool.and_eq_true_iff.mp hflag).1
    exact (congrArg conv hpupper).trans hupper
  · intro t ht k hk hplower
    have hbegin : beginSigned H il n T incr t = il + k * incr :=
      hconv.injective (fits_toSigned hH _) (hvalueFits k hk) (hplower.trans (hconvValue k hk).symm)
    have horder : beginSigned H il n T incr t ≤ iu ↔
        conv (beginSigned H il n T incr t) ≤ lower + (n - 1) * incr := by
      rw [show conv (beginSigned H il n T incr t) = lower + k * incr from hplower, hbegin, hiu]
      omega
    have hend : beginSigned H il n T incr t + share n T t * incr - incr = iu ↔
        conv (beginSigned H il n T incr t + share n T t * incr - incr) = lower + (n - 1) * incr := by
      rw [← hupper]
      exact ⟨congrArg conv, hconv.injective (hspan t ht).pupper hiu'⟩
    show (decide _ && decide _) = true ↔ _
    rw [Bool.and_eq_true_iff, decide_eq_true_iff, decide_eq_true_iff, hend, horder]
    rfl

theorem converted_partitions_iff (hconv : Conversion H base conv) (hincr : incr ≠ 0) (hH : 0 < H) (hT : 0 < T)
    (hiu : iu = il + (n - 1) * incr) (hil : Fits H il) (hiu' : Fits H iu) (hlower : conv il = lower)
    (hupper : conv iu = lower + (n - 1) * incr) :
    Partitions lower n T incr (fun t => (staticInitSigned H T t il iu incr).map (Bounds.converted conv)) ↔
      CountFits H il iu incr ∧ (∀ t, t < T → SpanFits H il n T incr t) ∧
        if n < T then ∀ t, n ≤ t → t < T →
          Empty incr (convertedBounds H conv il iu incr n T t).plower
            (convertedBounds H conv il iu incr n T t).pupper ∧
          (convertedBounds H conv il iu incr n T t).plastiter = false
        else (T ∣ n ∨ incr = 1) ∧ (0 < incr ∨ n = T) := by
  constructor
  · rintro ⟨r, hcall, hp⟩
    have hsome : ∀ t, t < T → ∃ r', staticInitSigned H T t il iu incr = some r' ∧ r'.converted conv = r t :=
      fun t ht => Option.map_eq_some_iff.mp (hcall t ht)
    obtain ⟨_, hzero, -⟩ := hsome 0 hT
    have hcount := countFits_of_signed hzero
    have hcounted := counted_of_fits hincr hiu hcount hT
    have hspan : ∀ t, t < T → SpanFits H il n T incr t ∧ r t = convertedBounds H conv il iu incr n T t := by
      intro t ht
      obtain ⟨r', hr', heq⟩ := hsome t ht
      obtain ⟨hfits, rfl⟩ := (signed_eq_some hcounted).mp hr'
      exact ⟨hfits, heq.symm⟩
    have hfollows := follows_converted hconv hH hiu hil hiu' hlower hupper fun t ht => (hspan t ht).1
    exact ⟨hcount, fun t ht => (hspan t ht).1,
      (hfollows.partition_iff hincr hT).mp (hp.congr fun t ht => (hspan t ht).2)⟩
  · rintro ⟨hcount, hspan, hcond⟩
    have hcounted := counted_of_fits hincr hiu hcount hT
    have hfollows := follows_converted hconv hH hiu hil hiu' hlower hupper hspan
    refine ⟨convertedBounds H conv il iu incr n T, ?_, (hfollows.partition_iff hincr hT).mpr hcond⟩
    intro t ht
    have hcall := (signed_eq_some hcounted).mpr ⟨hspan t ht, rfl⟩
    exact congrArg (Option.map (Bounds.converted conv)) hcall

/-! ## The condition on the loop -/

/-- Where the threads without iterations begin. -/
def idleBegin (H : Nat) (il : Int) (n : Nat) : Int := toSigned H (il + n)

/-- The loop with `n` iterations from `il` on is one that `kmp_sch_static` splits among `T` threads. -/
structure Splits (H : Nat) (il : Int) (n T : Nat) (incr : Int) : Prop where
  range : Fits H ((n - 1) * incr)
  count : n < H
  behind : 0 < n → Fits H (il + n * incr)
  alone : T = 1 → Fits H (n * incr)
  idle : n < T → Fits H (idleBegin H il n - incr) ∧ (incr < 0 → idleBegin H il n - incr ≠ il + (n - 1) * incr)
  busy : T ≤ n → (T ∣ n ∨ incr = 1) ∧ (0 < incr ∨ n = T)

theorem beginSigned_of_idle (hlt : n < T) (hn : n ≤ t) : beginSigned H il n T incr t = idleBegin H il n := by
  have hmod := Nat.mod_eq_of_lt hlt
  unfold beginSigned idleBegin
  rw [offset_of_le (by omega), hmod, Nat.div_eq_of_lt hlt]
  simp

theorem beginSigned_of_busy (hright : n < T ∨ T ∣ n ∨ incr = 1) (hshare : share n T t ≠ 0)
    (hfits : Fits H (il + first n T t * incr)) : beginSigned H il n T incr t = il + first n T t * incr := by
  unfold beginSigned
  rw [offset_eq, toSigned_of_fits hfits]
  rcases hright with hlt | hright
  · exact Or.inl (lt_mod_of_share_ne_zero hlt hshare)
  · exact Or.inr hright

/-- In a team, no thread has the whole of a loop with several iterations. -/
theorem share_le (hT : 2 ≤ T) : share n T t ≤ 1 ∨ share n T t ≤ n - 1 := by
  have hmul : n / T * T + n % T = n := Nat.div_add_mod' n T
  have htwice : n / T * 2 ≤ n / T * T := Nat.mul_le_mul_left _ hT
  unfold share
  split <;> omega

/-- The place of a share does not overflow if the whole loop does not. -/
theorem fits_first (hiu : iu = il + (n - 1) * incr) (hil : Fits H il) (hiu' : Fits H iu) (ht : t < T)
    (hshare : share n T t ≠ 0) :
    Fits H (il + first n T t * incr) ∧ Fits H (il + (first n T t + share n T t - 1 : Nat) * incr) := by
  have hle := first_add_share_le ht (n := n)
  have hlast : Fits H (il + ((n - 1 : Nat) : Int) * incr) := by
    rw [Nat.cast_pred (by omega), ← hiu]
    exact hiu'
  exact ⟨fits_of_le hil hlast (by omega), fits_of_le hil hlast (by omega)⟩

/-- Where an idle thread ends. -/
theorem pupper_of_idle (hlt : n < T) (hn : n ≤ t) :
    beginSigned H il n T incr t + share n T t * incr - incr = idleBegin H il n - incr := by
  rw [beginSigned_of_idle hlt hn, (share_eq_zero_iff (by omega)).mpr ⟨hlt, hn⟩]
  simp

theorem idle_iff (hincr : incr ≠ 0) (hiu : iu = il + (n - 1) * incr) (hlt : n < T) :
    (∀ t, n ≤ t → t < T → Empty incr (convertedBounds H conv il iu incr n T t).plower
        (convertedBounds H conv il iu incr n T t).pupper ∧
      (convertedBounds H conv il iu incr n T t).plastiter = false) ↔
    Empty incr (conv (idleBegin H il n)) (conv (idleBegin H il n - incr)) ∧
      (incr < 0 → idleBegin H il n - incr ≠ il + (n - 1) * incr) := by
  have hbounds : ∀ t, n ≤ t → convertedBounds H conv il iu incr n T t = ⟨conv (idleBegin H il n),
      conv (idleBegin H il n - incr),
      decide (idleBegin H il n - incr = iu) && decide (idleBegin H il n ≤ iu), toSigned H n⟩ := by
    intro t hn
    have hpupper : beginSigned H il n T incr t + share n T t * incr - incr = idleBegin H il n - incr :=
      pupper_of_idle hlt hn
    unfold convertedBounds signedBounds Bounds.converted
    rw [hpupper, beginSigned_of_idle hlt hn]
  constructor
  · intro h
    have hidle := h n (Nat.le_refl n) hlt
    rw [hbounds n (Nat.le_refl n)] at hidle
    refine ⟨hidle.1, ?_⟩
    intro hneg heq
    have hset : (decide (idleBegin H il n - incr = iu) && decide (idleBegin H il n ≤ iu)) = true := by
      have hend := heq.trans hiu.symm
      rw [Bool.and_eq_true_iff, decide_eq_true_iff, decide_eq_true_iff]
      exact ⟨hend, by omega⟩
    rw [hset] at hidle
    exact Bool.noConfusion hidle.2
  · rintro ⟨hempty, hne⟩ t hn -
    rw [hbounds t hn]
    refine ⟨hempty, ?_⟩
    rw [Bool.and_eq_false_iff, decide_eq_false_iff_not, decide_eq_false_iff_not]
    by_cases heq : idleBegin H il n - incr = iu
    · right
      have hpos : ¬ incr < 0 := fun hneg => hne hneg (heq.trans hiu)
      omega
    · exact Or.inl heq

/-- The operations for the bounds of a thread with a share. -/
theorem spanFits_of_busy (hiu : iu = il + (n - 1) * incr) (hil : Fits H il) (hiu' : Fits H iu)
    (hincr' : Fits H incr) (hrange : Fits H ((n - 1) * incr)) (hright : n < T ∨ T ∣ n ∨ incr = 1)
    (halone : T = 1 → Fits H (n * incr))
    (hbehind : Fits H (il + n * incr)) (ht : t < T) (hshare : share n T t ≠ 0) :
    SpanFits H il n T incr t := by
  obtain ⟨hfirst, hlast⟩ := fits_first hiu hil hiu' ht hshare
  have hle := first_add_share_le ht (n := n)
  have hbegin := beginSigned_of_busy hright hshare hfirst
  have hzero : Fits H 0 := by
    unfold Fits at *
    omega
  refine ⟨?_, ?_, ?_⟩
  · rcases Nat.lt_or_ge 1 T with htwo | hone
    · rcases share_le (n := n) (t := t) htwo with hle₁ | hle₁
      · rw [show share n T t = 1 by omega]
        simpa using hincr'
      · have hcast : ((n : Int) - 1) * incr = 0 + ((n - 1 : Nat) : Int) * incr := by
          rw [Nat.cast_pred (by omega), Int.zero_add]
        rw [hcast] at hrange
        simpa using fits_of_le hzero hrange hle₁
    · obtain rfl : T = 1 := by omega
      rw [share_of_le (by rw [Nat.mod_one]; omega), Nat.div_one]
      exact halone rfl
  · have hend := fits_of_le hil hbehind hle
    rw [hbegin]
    push_cast at hend
    rwa [Int.add_assoc, ← Int.add_mul]
  · rw [hbegin]
    have hcast : il + first n T t * incr + share n T t * incr - incr =
        il + ((first n T t + share n T t - 1 : Nat) : Int) * incr := by
      rw [Nat.cast_pred (by omega)]
      push_cast
      ring
    rwa [hcast]

theorem spanFits_iff (hH : 0 < H) (hT : 0 < T) (hincr' : Fits H incr) (hiu : iu = il + (n - 1) * incr)
    (hil : Fits H il) (hiu' : Fits H iu) (hrange : Fits H ((n - 1) * incr))
    (hright : n < T ∨ T ∣ n ∨ incr = 1) :
    (∀ t, t < T → SpanFits H il n T incr t) ↔
      (0 < n → Fits H (il + n * incr)) ∧ (T = 1 → Fits H (n * incr)) ∧
        (n < T → Fits H (idleBegin H il n - incr)) := by
  constructor
  · intro h
    refine ⟨?_, ?_, ?_⟩
    · intro hn
      obtain ⟨t, ⟨ht, hlo, hhi⟩, -⟩ := existsUnique_owner (n := n) (k := n - 1) hT (by omega)
      have hend : first n T t + share n T t = n := by
        have := first_add_share_le ht (n := n)
        omega
      have hshare : share n T t ≠ 0 := by omega
      have hbehind := (h t ht).behind
      rw [beginSigned_of_busy hright hshare (fits_first hiu hil hiu' ht hshare).1] at hbehind
      have hcast : il + first n T t * incr + share n T t * incr = il + n * incr := by
        rw [Int.add_assoc, ← Int.add_mul, ← Nat.cast_add, hend]
      rwa [hcast] at hbehind
    · rintro rfl
      have hone := (h 0 hT).span
      rwa [share_of_le (by rw [Nat.mod_one]), Nat.div_one] at hone
    · intro hlt
      have hpupper := (h n hlt).pupper
      rwa [pupper_of_idle hlt (Nat.le_refl n)] at hpupper
  · rintro ⟨hbehind, halone, hidle⟩ t ht
    by_cases hshare : share n T t = 0
    · obtain ⟨hlt, hn⟩ := (share_eq_zero_iff hT).mp hshare
      have hfits : Fits H (idleBegin H il n) := fits_toSigned hH (il + n)
      refine ⟨?_, ?_, ?_⟩
      · rw [hshare]
        unfold Fits
        omega
      · rw [hshare, beginSigned_of_idle hlt hn]
        simpa using hfits
      · rw [pupper_of_idle hlt hn]
        exact hidle hlt
    · have hle := first_add_share_le ht (n := n)
      exact spanFits_of_busy hiu hil hiu' hincr' hrange hright halone (hbehind (by omega)) ht hshare

theorem converted_iff_splits (hincr : incr ≠ 0) (hH : 0 < H) (hT : 0 < T) (hincr' : Fits H incr)
    (hiu : iu = il + (n - 1) * incr) (hil : Fits H il) (hiu' : Fits H iu) :
    (CountFits H il iu incr ∧ (∀ t, t < T → SpanFits H il n T incr t) ∧
        if n < T then ∀ t, n ≤ t → t < T →
          Empty incr (convertedBounds H conv il iu incr n T t).plower
            (convertedBounds H conv il iu incr n T t).pupper ∧
          (convertedBounds H conv il iu incr n T t).plastiter = false
        else (T ∣ n ∨ incr = 1) ∧ (0 < incr ∨ n = T)) ↔
      Splits H il n T incr ∧
        (n < T → Empty incr (conv (idleBegin H il n)) (conv (idleBegin H il n - incr))) := by
  have hrange : iu - il = (n - 1) * incr := by
    rw [hiu]
    ring
  have hquot : (iu - il).tdiv incr = n - 1 := by rw [hrange, Int.mul_tdiv_cancel _ hincr]
  constructor
  · rintro ⟨hcount, hspan, hcond⟩
    have hnext := hcount.next
    rw [hquot] at hnext
    have hn : n < H := by
      unfold Fits at hnext
      omega
    have hrange' : Fits H ((n - 1) * incr) := hrange ▸ hcount.range
    by_cases hlt : n < T
    · rw [if_pos hlt, idle_iff hincr hiu hlt] at hcond
      obtain ⟨hbehind, halone, hidle⟩ :=
        (spanFits_iff hH hT hincr' hiu hil hiu' hrange' (Or.inl hlt)).mp hspan
      exact ⟨⟨hrange', hn, hbehind, halone, fun _ => ⟨hidle hlt, hcond.2⟩,
        fun hle => absurd hlt (Nat.not_lt.mpr hle)⟩, fun _ => hcond.1⟩
    · rw [if_neg hlt] at hcond
      obtain ⟨hbehind, halone, -⟩ :=
        (spanFits_iff hH hT hincr' hiu hil hiu' hrange' (Or.inr hcond.1)).mp hspan
      exact ⟨⟨hrange', hn, hbehind, halone, fun h => absurd h hlt, fun _ => hcond⟩, fun h => absurd h hlt⟩
  · rintro ⟨hs, hempty⟩
    have hright : n < T ∨ T ∣ n ∨ incr = 1 := by
      rcases Nat.lt_or_ge n T with hlt | hge
      · exact Or.inl hlt
      · exact Or.inr (hs.busy hge).1
    have hn := hs.count
    refine ⟨⟨hrange ▸ hs.range, ?_, ?_⟩, ?_, ?_⟩
    · rw [hquot]
      unfold Fits
      omega
    · rw [hquot]
      unfold Fits
      omega
    · exact (spanFits_iff hH hT hincr' hiu hil hiu' hs.range hright).mpr
        ⟨hs.behind, hs.alone, fun hlt => (hs.idle hlt).1⟩
    · by_cases hlt : n < T
      · rw [if_pos hlt, idle_iff hincr hiu hlt]
        exact ⟨hempty hlt, (hs.idle hlt).2⟩
      · rw [if_neg hlt]
        exact hs.busy (Nat.not_lt.mp hlt)

/-! ## Signed bounds -/

theorem conversion_id (H : Nat) : Conversion H (-H) id where
  dvd x := by simp
  mem x hx := by
    unfold Fits at hx
    simp only [id]
    omega

theorem signed_partitions_iff (hincr : incr ≠ 0) (hH : 0 < H) (hT : 0 < T) (hincr' : Fits H incr)
    (hiu : iu = il + (n - 1) * incr) (hil : Fits H il) (hiu' : Fits H iu) :
    Partitions il n T incr (fun t => staticInitSigned H T t il iu incr) ↔ Splits H il n T incr := by
  have hsame : (fun t => staticInitSigned H T t il iu incr) =
      fun t => (staticInitSigned H T t il iu incr).map (Bounds.converted id) := by
    funext t
    exact (Option.map_id_fun' ▸ rfl)
  rw [hsame]
  have hiff := converted_partitions_iff (conversion_id H) hincr hH hT hiu hil hiu' rfl hiu
  simp only [id] at hiff
  rw [hiff, converted_iff_splits hincr hH hT hincr' hiu hil hiu', and_iff_left]
  intro _
  unfold Empty
  simp only [id]
  split <;> omega

/-! ## Unsigned bounds in the same half of the values -/

theorem conversion_toUnsigned (hH : 0 < H) : Conversion H 0 (toUnsigned H) where
  dvd := dvd_toUnsigned_sub H
  mem x _ := by
    have := toUnsigned_range hH x
    omega

theorem toUnsigned_toSigned (hH : 0 < H) {x : Int} (h0 : 0 ≤ x) (h : x < 2 * H) :
    toUnsigned H (toSigned H x) = x :=
  (conversion_toUnsigned hH).eq (fits_toSigned hH x) (dvd_toSigned_sub H x) (by omega)

theorem sameHalf_partitions_iff {upper : Int} (hincr : incr ≠ 0) (hH : 0 < H) (hT : 0 < T)
    (hincr' : Fits H incr) (hupper : upper = lower + (n - 1) * incr) (hlower : 0 ≤ lower ∧ lower < 2 * H)
    (hupper' : 0 ≤ upper ∧ upper < 2 * H)
    (hsame : toSigned H lower - lower = toSigned H upper - upper) :
    Partitions lower n T incr (fun t =>
        (staticInitSigned H T t (toSigned H lower) (toSigned H upper) incr).map
          (Bounds.converted (toUnsigned H))) ↔
      Splits H (toSigned H lower) n T incr ∧
        (n < T → Empty incr (toUnsigned H (idleBegin H (toSigned H lower) n))
        (toUnsigned H (idleBegin H (toSigned H lower) n - incr))) := by
  have hiu : toSigned H upper = toSigned H lower + (n - 1) * incr := by omega
  rw [converted_partitions_iff (conversion_toUnsigned hH) hincr hH hT hiu (fits_toSigned hH _)
    (fits_toSigned hH _)
    (toUnsigned_toSigned hH hlower.1 hlower.2) ((toUnsigned_toSigned hH hupper'.1 hupper'.2).trans hupper),
    converted_iff_splits hincr hH hT hincr' hiu (fits_toSigned hH _) (fits_toSigned hH _)]

end Omp

end CachePool
