import Mathlib.Data.Nat.Bitwise
import Mathlib.Tactic

/-!
# Exchanging two adjacent bit fields of a word

`[ rest | upper (n) | lower (m) | low (o) ]` becomes `[ rest | lower (m) | upper (n) | low (o) ]`: the
fields are cut out and concatenated in the new order.

* `getLsbD_exchange` — bit `i` of the result.
* `exchange_exchange` — exchanging back.
* `exchange_toNat`, `exchange_div` — the value of the result, and of its part above `upper`.
-/

set_option autoImplicit false

namespace BitField

variable {w : Nat}

theorem append_toNat {m n : Nat} (x : BitVec m) (y : BitVec n) :
    (x ++ y).toNat = x.toNat * 2 ^ n + y.toNat := by
  rw [BitVec.toNat_append, ← Nat.shiftLeft_add_eq_or_of_lt y.isLt, Nat.shiftLeft_eq]

theorem slice_toNat (a : BitVec w) (o n : Nat) :
    (a.extractLsb' o n).toNat = a.toNat / 2 ^ o % 2 ^ n := by
  rw [BitVec.extractLsb'_toNat, Nat.shiftRight_eq_div_pow]

/-- The word with the `m` bits from bit `o` and the `n` bits above them exchanged. -/
def exchange (o m n : Nat) (a : BitVec w) : BitVec w :=
  (a.extractLsb' (o + m + n) (w - (o + m + n)) ++ a.extractLsb' o m ++ a.extractLsb' (o + m) n ++
    a.extractLsb' 0 o).setWidth w

/-- The same concatenation, with the bounds of the two upper slices written in another way. -/
theorem exchange_eq {o m n p q r : Nat} (hp : p = o + m + n) (hr : r = w - (o + m + n))
    (hq : q = o + m) (a : BitVec w) :
    (a.extractLsb' p r ++ a.extractLsb' o m ++ a.extractLsb' q n ++ a.extractLsb' 0 o).setWidth w =
      exchange o m n a := by
  subst hp hr hq
  rfl

theorem getLsbD_exchange {o m n : Nat} (a : BitVec w) {i : Nat} (hi : i < w) :
    (exchange o m n a).getLsbD i =
      if i < o then a.getLsbD i
      else if i < o + n then a.getLsbD (i + m)
      else if i < o + n + m then a.getLsbD (i - n) else a.getLsbD i := by
  simp only [exchange, BitVec.getLsbD_setWidth, BitVec.getLsbD_append, BitVec.getLsbD_extractLsb', hi,
    decide_true, Bool.true_and, Nat.zero_add]
  by_cases h1 : i < o
  · simp [h1]
  · by_cases h2 : i < o + n
    · simp [h1, h2, show i - o < n by omega, show o + m + (i - o) = i + m by omega]
    · by_cases h3 : i < o + n + m
      · simp [h1, h2, h3, show ¬ i - o < n by omega, show i - o - n < m by omega,
          show o + (i - o - n) = i - n by omega]
      · simp [h1, h2, h3, show ¬ i - o < n by omega, show ¬ i - o - n < m by omega,
          show i - o - n - m < w - (o + m + n) by omega,
          show o + m + n + (i - o - n - m) = i by omega]

/-- **Exchanging back.** -/
theorem exchange_exchange {o m n : Nat} (h : o + m + n ≤ w) (a : BitVec w) :
    exchange o n m (exchange o m n a) = a := by
  apply BitVec.eq_of_getLsbD_eq
  intro i hi
  rw [getLsbD_exchange _ hi]
  split
  · rename_i h1
    rw [getLsbD_exchange _ hi, if_pos h1]
  · rename_i h1
    split
    · rename_i h2
      rw [getLsbD_exchange _ (by omega), if_neg (by omega), if_neg (by omega), if_pos (by omega),
        Nat.add_sub_cancel]
    · rename_i h2
      split
      · rename_i h3
        rw [getLsbD_exchange _ (by omega), if_neg (by omega), if_pos (by omega),
          Nat.sub_add_cancel (by omega)]
      · rename_i h3
        rw [getLsbD_exchange _ hi, if_neg h1, if_neg (by omega), if_neg (by omega)]

theorem exchange_toNat {o m n : Nat} (h : o + m + n ≤ w) (a : BitVec w) :
    (exchange o m n a).toNat =
      ((a.toNat / 2 ^ (o + m + n) * 2 ^ m + a.toNat / 2 ^ o % 2 ^ m) * 2 ^ n +
        a.toNat / 2 ^ (o + m) % 2 ^ n) * 2 ^ o + a.toNat % 2 ^ o := by
  have hw : (w - (o + m + n)) + m + n + o = w := by omega
  have hrest : a.toNat / 2 ^ (o + m + n) < 2 ^ (w - (o + m + n)) := by
    apply Nat.div_lt_of_lt_mul
    rw [← Nat.pow_add, show o + m + n + (w - (o + m + n)) = w by omega]
    exact a.isLt
  rw [exchange, BitVec.toNat_setWidth, Nat.mod_eq_of_lt]
  · rw [append_toNat, append_toNat, append_toNat, slice_toNat, slice_toNat, slice_toNat, slice_toNat,
      Nat.mod_eq_of_lt hrest, pow_zero, Nat.div_one]
  · refine Nat.lt_of_lt_of_le (BitVec.isLt _) (Nat.pow_le_pow_right (by omega) ?_)
    omega

/-- A field of `n` bits is shed by the division. -/
theorem mul_add_div_two_pow {q r n : Nat} (hr : r < 2 ^ n) : (q * 2 ^ n + r) / 2 ^ n = q := by
  rw [Nat.add_comm, Nat.add_mul_div_right _ _ (Nat.two_pow_pos n), Nat.div_eq_of_lt hr, Nat.zero_add]

/-- The value above the upper field after the exchange. -/
theorem exchange_div {o m n : Nat} (h : o + m + n ≤ w) (a : BitVec w) :
    (exchange o m n a).toNat / 2 ^ (o + n) =
      a.toNat / 2 ^ (o + m + n) * 2 ^ m + a.toNat / 2 ^ o % 2 ^ m := by
  have hlow : a.toNat % 2 ^ o < 2 ^ o := Nat.mod_lt _ (Nat.two_pow_pos o)
  have hup : a.toNat / 2 ^ (o + m) % 2 ^ n < 2 ^ n := Nat.mod_lt _ (Nat.two_pow_pos n)
  rw [exchange_toNat h, Nat.pow_add 2 o n, ← Nat.div_div_eq_div_mul, mul_add_div_two_pow hlow,
    mul_add_div_two_pow hup]

/-! ## Comparing above a bit position -/

/-- Two words agree under the mask of the bits from `k` up iff their values above `k` agree. -/
theorem and_highMask_eq_iff (k : Nat) (x y : BitVec w) :
    x &&& (BitVec.allOnes w <<< k) = y &&& (BitVec.allOnes w <<< k) ↔
      x.toNat / 2 ^ k = y.toNat / 2 ^ k := by
  have hshift : x.toNat / 2 ^ k = y.toNat / 2 ^ k ↔ x >>> k = y >>> k := by
    rw [← BitVec.toNat_inj, BitVec.toNat_ushiftRight, BitVec.toNat_ushiftRight,
      Nat.shiftRight_eq_div_pow, Nat.shiftRight_eq_div_pow]
  rw [hshift]
  constructor
  · intro h
    apply BitVec.eq_of_getLsbD_eq
    intro i hi
    rw [BitVec.getLsbD_ushiftRight, BitVec.getLsbD_ushiftRight]
    by_cases hk : k + i < w
    · have hb := congrArg (fun z => z.getLsbD (k + i)) h
      simpa [hk] using hb
    · rw [BitVec.getLsbD_of_ge x _ (by omega), BitVec.getLsbD_of_ge y _ (by omega)]
  · intro h
    apply BitVec.eq_of_getLsbD_eq
    intro i hi
    by_cases hk : i < k
    · simp [hk]
    · have hb := congrArg (fun z => z.getLsbD (i - k)) h
      simp only [BitVec.getLsbD_ushiftRight, show k + (i - k) = i by omega] at hb
      simp [hb]

end BitField
