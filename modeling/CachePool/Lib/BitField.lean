import Mathlib.Data.Nat.Bitwise
import Mathlib.Data.Set.Function
import Mathlib.Tactic

/-!
# Parking a bit field at the top of a word

A word `[ high | field | low ]` whose `field` is the `n` bits above position `o` can be turned into
`[ field | high | low ]` and back.  Both directions are written with shifts and masks only.

* `getLsbD_lowMask`, `getLsbD_park`, `getLsbD_unpark` — bit `i` of each result.
* `unpark_park`, `park_unpark` — the two are mutually inverse whenever the field lies in the word.
* `topField_park`, `bijOn_park` — parking takes a field to the top, one to one from each of its values.
* `setField` — a field overwritten with a number; `setField_eq_iff` says which words become the same.
-/

set_option autoImplicit false

namespace BitField

variable {w : Nat}

/-- The word with exactly the `n` low bits set. -/
def lowMask (w n : Nat) : BitVec w := (1#w <<< n) - 1#w

/-- `[ high | field | low ] → [ field | high | low ]`. -/
def park (o n : Nat) (a : BitVec w) : BitVec w :=
  (a &&& lowMask w o) ||| ((a >>> (o + n)) <<< o) ||| (((a >>> o) &&& lowMask w n) <<< (w - n))

/-- `[ field | high | low ] → [ high | field | low ]`. -/
def unpark (o n : Nat) (b : BitVec w) : BitVec w :=
  (b &&& lowMask w o) ||| ((b >>> (w - n)) <<< o) |||
    (((b >>> o) &&& lowMask w (w - o - n)) <<< (o + n))

theorem lowMask_toNat {n : Nat} (h : n < w) : (lowMask w n).toNat = 2 ^ n - 1 := by
  have hw : 0 < w := by omega
  have hp : 2 ^ n < 2 ^ w := Nat.pow_lt_pow_right (by omega) h
  have h1 : 1 ≤ 2 ^ n := Nat.one_le_two_pow
  have hone : 1 % 2 ^ w = 1 := Nat.mod_eq_of_lt (Nat.one_lt_two_pow (by omega))
  have hs : 2 ^ w - 1 + 2 ^ n = (2 ^ n - 1) + 2 ^ w := by omega
  simp only [lowMask, BitVec.toNat_sub, BitVec.toNat_shiftLeft, BitVec.toNat_ofNat, hone,
    Nat.one_shiftLeft, Nat.mod_eq_of_lt hp]
  rw [hs, Nat.add_mod_right, Nat.mod_eq_of_lt (by omega)]

/-- A shift by the whole width or more leaves the all-ones word. -/
theorem lowMask_of_le {n : Nat} (h : w ≤ n) : lowMask w n = BitVec.allOnes w := by
  have hz : (1#w <<< n) = 0#w := by
    apply BitVec.eq_of_getLsbD_eq
    intro i hi
    simp [show i < n by omega]
  rw [lowMask, hz]
  apply BitVec.eq_of_toNat_eq
  rcases Nat.eq_zero_or_pos w with rfl | hw
  · rfl
  · have : 1 % 2 ^ w = 1 := Nat.mod_eq_of_lt (Nat.one_lt_two_pow (by omega))
    simp [this]

@[simp] theorem getLsbD_lowMask (n i : Nat) :
    (lowMask w n).getLsbD i = (decide (i < n) && decide (i < w)) := by
  by_cases hn : n < w
  · rw [BitVec.getLsbD, lowMask_toNat hn, Nat.testBit_two_pow_sub_one]
    by_cases hi : i < n
    · simp [hi, show i < w by omega]
    · simp [hi]
  · rw [lowMask_of_le (by omega), BitVec.getLsbD_allOnes]
    by_cases hi : i < w
    · simp [hi, show i < n by omega]
    · simp [hi]

theorem getLsbD_park {o n : Nat} (h : o + n ≤ w) (a : BitVec w) {i : Nat} (hi : i < w) :
    (park o n a).getLsbD i =
      if i < o then a.getLsbD i
      else if i < w - n then a.getLsbD (i + n) else a.getLsbD (o + (i - (w - n))) := by
  simp only [park, BitVec.getLsbD_or, BitVec.getLsbD_and, BitVec.getLsbD_shiftLeft,
    BitVec.getLsbD_ushiftRight, getLsbD_lowMask]
  split
  · rename_i h1
    simp [h1, hi, show i < w - n by omega]
  · rename_i h1
    split
    · rename_i h2
      simp [h1, hi, h2, show o + n + (i - o) = i + n by omega]
    · rename_i h2
      simp [h1, hi, h2, show i - (w - n) < n by omega, show i - (w - n) < w by omega,
        BitVec.getLsbD_of_ge a (o + n + (i - o)) (by omega)]

theorem getLsbD_unpark {o n : Nat} (h : o + n ≤ w) (b : BitVec w) {i : Nat} (hi : i < w) :
    (unpark o n b).getLsbD i =
      if i < o then b.getLsbD i
      else if i < o + n then b.getLsbD (w - n + (i - o)) else b.getLsbD (i - n) := by
  simp only [unpark, BitVec.getLsbD_or, BitVec.getLsbD_and, BitVec.getLsbD_shiftLeft,
    BitVec.getLsbD_ushiftRight, getLsbD_lowMask]
  split
  · rename_i h1
    simp [h1, hi, show i < o + n by omega]
  · rename_i h1
    split
    · rename_i h2
      simp [h1, hi, h2]
    · rename_i h2
      simp [h1, hi, h2, show i - (o + n) < w - o - n by omega, show i - (o + n) < w by omega,
        BitVec.getLsbD_of_ge b (w - n + (i - o)) (by omega),
        show o + (i - (o + n)) = i - n by omega]

/-- **Un-parking undoes parking.** -/
theorem unpark_park {o n : Nat} (h : o + n ≤ w) (a : BitVec w) : unpark o n (park o n a) = a := by
  apply BitVec.eq_of_getLsbD_eq
  intro i hi
  rw [getLsbD_unpark h _ hi]
  split
  · rename_i h1
    rw [getLsbD_park h _ hi, if_pos h1]
  · rename_i h1
    split
    · rename_i h2
      rw [getLsbD_park h _ (by omega), if_neg (by omega), if_neg (by omega)]
      congr 1; omega
    · rename_i h2
      rw [getLsbD_park h _ (by omega), if_neg (by omega), if_pos (by omega)]
      congr 1; omega

/-- **Parking undoes un-parking.** -/
theorem park_unpark {o n : Nat} (h : o + n ≤ w) (b : BitVec w) : park o n (unpark o n b) = b := by
  apply BitVec.eq_of_getLsbD_eq
  intro i hi
  rw [getLsbD_park h _ hi]
  split
  · rename_i h1
    rw [getLsbD_unpark h _ hi, if_pos h1]
  · rename_i h1
    split
    · rename_i h2
      rw [getLsbD_unpark h _ (by omega), if_neg (by omega), if_neg (by omega)]
      congr 1; omega
    · rename_i h2
      rw [getLsbD_unpark h _ (by omega), if_neg (by omega), if_pos (by omega)]
      congr 1; omega

/-! ## The field before and after -/

/-- The `n` bits above position `o`, and the `n` bits at the top. -/
def fieldAt (o n : Nat) (a : BitVec w) : BitVec w := (a >>> o) &&& lowMask w n

def topField (n : Nat) (b : BitVec w) : BitVec w := b >>> (w - n)

/-- Parking takes the field to the top. -/
theorem topField_park {o n : Nat} (h : o + n ≤ w) (a : BitVec w) :
    topField n (park o n a) = fieldAt o n a := by
  apply BitVec.eq_of_getLsbD_eq
  intro i hi
  simp only [topField, fieldAt, BitVec.getLsbD_ushiftRight, BitVec.getLsbD_and, getLsbD_lowMask]
  by_cases hn : i < n
  · rw [getLsbD_park h a (by omega), if_neg (by omega), if_neg (by omega),
      show o + (w - n + i - (w - n)) = o + i by omega]
    simp [hn, hi]
  · rw [BitVec.getLsbD_of_ge _ _ (by omega)]
    simp [hn]

/-- Parking is a bijection between the words with a field and those with it at the top. -/
theorem bijOn_park {o n : Nat} (h : o + n ≤ w) (r : BitVec w) :
    Set.BijOn (park o n) {a | fieldAt o n a = r} {b | topField n b = r} := by
  refine ⟨?_, ?_, ?_⟩
  · intro a ha
    exact (topField_park h a).trans ha
  · intro a _ a' _ heq
    rw [← unpark_park h a, heq, unpark_park h a']
  · intro b hb
    have hback := park_unpark h b
    have hfield : fieldAt o n (unpark o n b) = r := by
      rw [← topField_park h, hback]
      exact hb
    exact ⟨unpark o n b, hfield, hback⟩

/-! ## Overwriting a field -/

/-- The `n` bits above position `o` replaced by the low `n` bits of `v`. -/
def setField (o n : Nat) (v a : BitVec w) : BitVec w :=
  (a &&& ~~~(lowMask w n <<< o)) ||| ((v &&& lowMask w n) <<< o)

theorem getLsbD_setField (o n : Nat) (v a : BitVec w) {i : Nat} (hi : i < w) :
    (setField o n v a).getLsbD i =
      if o ≤ i ∧ i < o + n then v.getLsbD (i - o) else a.getLsbD i := by
  simp only [setField, BitVec.getLsbD_or, BitVec.getLsbD_and, BitVec.getLsbD_not, BitVec.getLsbD_shiftLeft,
    getLsbD_lowMask]
  split
  · rename_i h
    simp [hi, show ¬ i < o by omega, show i - o < n by omega, show i - o < w by omega]
  · rename_i h
    by_cases ho : i < o
    · simp [hi, ho]
    · simp [hi, ho, show ¬ i - o < n by omega]

/-- The two words have the same bits outside the field. -/
def SameOutside (o n : Nat) (a a' : BitVec w) : Prop :=
  ∀ i, i < w → ¬ (o ≤ i ∧ i < o + n) → a.getLsbD i = a'.getLsbD i

/-- **Which words an overwritten field makes the same.** -/
theorem setField_eq_iff {o n : Nat} (h : o + n ≤ w) {v v' a a' : BitVec w} :
    setField o n v a = setField o n v' a' ↔
      (∀ i < n, v.getLsbD i = v'.getLsbD i) ∧ SameOutside o n a a' := by
  constructor
  · intro heq
    constructor
    · intro i hi
      have hbit := congrArg (fun b => b.getLsbD (o + i)) heq
      simp only [getLsbD_setField o n _ _ (show o + i < w by omega)] at hbit
      rwa [if_pos (by omega), if_pos (by omega), show o + i - o = i by omega] at hbit
    · intro i hi hout
      have hbit := congrArg (fun b => b.getLsbD i) heq
      simp only [getLsbD_setField o n _ _ hi] at hbit
      rwa [if_neg hout, if_neg hout] at hbit
  · rintro ⟨hv, hout⟩
    apply BitVec.eq_of_getLsbD_eq
    intro i hi
    rw [getLsbD_setField o n _ _ hi, getLsbD_setField o n _ _ hi]
    split
    · exact hv (i - o) (by omega)
    · rename_i hnot
      exact hout i hi hnot

/-- The bits above the field stay. -/
theorem setField_ushiftRight {o n t : Nat} (ht : o + n ≤ t) (v a : BitVec w) :
    setField o n v a >>> t = a >>> t := by
  apply BitVec.eq_of_getLsbD_eq
  intro i hi
  rw [BitVec.getLsbD_ushiftRight, BitVec.getLsbD_ushiftRight]
  by_cases hlt : t + i < w
  · rw [getLsbD_setField o n v a hlt, if_neg (by omega)]
  · rw [BitVec.getLsbD_of_ge _ _ (by omega), BitVec.getLsbD_of_ge _ _ (by omega)]

end BitField
