import Mathlib.Data.Nat.Bitwise
import CachePool.Lib.Loop

/-!
# The comparison of the self-check (`memdiff32` in `kernel/rlc.c`)

Bytes up to the first place where both pointers are aligned, then words, then bytes.  A word that differs is
looked at again before its index is returned, but through `p_32[base]`, where `base` counts bytes and `p_32`
points to words: the second look is at byte `4 * base`.  A word at an address that is no multiple of four is
not read: the hart takes an exception that the runtime does not return from.

* `Scan`, `memdiff32` — the variables and the three loops; `reads` has the places, in both buffers, that were
  read.
* `Correct` — what the comparison is for.
* `SecondLook` — the first word that differs differs at the second look as well, inside the buffers, which
  begin at a word.
* `Fine`, `Found`, `Missed` — no difference so far; a difference about to be returned; a difference passed
  over, or a read outside.
* `memdiff32_correct_iff` — the comparison is correct exactly if `SecondLook` holds.
-/

set_option autoImplicit false

namespace CachePool

namespace Rlc

namespace MemDiff

open Loop

/-- The variables of `memdiff32`: `ret` is what has been returned, and `reads` the offsets that both buffers
have been read at, each with a length.  `k` is 0 outside the loop over the words. -/
structure Scan where
  i : Nat
  k : Nat
  ret : Option Nat
  reads : List (Nat × Nat)
  deriving DecidableEq, Repr

variable (m : Nat → BitVec 8) (a b len : Nat)

/-- A `uint32_t` in memory. -/
def word (addr : Nat) : Nat :=
  (m addr).toNat + 2 ^ 8 * (m (addr + 1)).toNat + 2 ^ 16 * (m (addr + 2)).toNat +
    2 ^ 24 * (m (addr + 3)).toNat

/-- `lw`; at a misaligned address the hart does not come back from the exception. -/
def lw (addr : Nat) : Option Nat := if addr % 4 = 0 then some (word m addr) else none

/-- The body of the two loops over bytes. -/
def byteStep (s : Scan) : Option (ForInStep Scan) :=
  let s := { s with reads := s.reads ++ [(s.i, 1)] }
  if m (a + s.i) ≠ m (b + s.i) then some (.done { s with ret := some s.i })
  else some (.yield { s with i := s.i + 1 })

/-- The body of the loop over the words. -/
def wordStep (s : Scan) : Option (ForInStep Scan) := do
  let s := { s with reads := s.reads ++ [(s.i + 4 * s.k, 4)] }
  let x := (← lw m (a + (s.i + 4 * s.k))) ^^^ (← lw m (b + (s.i + 4 * s.k)))
  if x ≠ 0 then
    let base := s.i + s.k * 4
    let s := { s with reads := s.reads ++ [(4 * base, 4)] }
    if (← lw m (a + 4 * base)) ≠ (← lw m (b + 4 * base)) then return .done { s with ret := some base }
    else return .yield { s with k := s.k + 1 }
  else return .yield { s with k := s.k + 1 }

def prologue : Prog Scan :=
  whileDo (fun s => decide (s.i < len) && decide (((a + s.i) ||| (b + s.i)) &&& 3 ≠ 0)) (byteStep m a b)

def words : Prog Scan := whileDo (fun s => decide (s.k < (len - s.i) / 4)) (wordStep m a b)

def trailing : Prog Scan :=
  seq (act fun s => { s with i := s.i + (len - s.i) / 4 * 4, k := 0 })
    (whileDo (fun s => decide (s.i < len)) (byteStep m a b))

/-- Nothing runs after a `return`. -/
def unlessReturned (p : Prog Scan) : Prog Scan := bindState fun s => if s.ret = none then p else act id

/-- `memdiff32`. -/
def memdiff32 : Prog Scan :=
  seq (prologue m a b len) (seq (unlessReturned (words m a b len)) (unlessReturned (trailing m a b len)))

def start : Scan := ⟨0, 0, none, []⟩

/-- What `memdiff32` returns. -/
def Scan.result (s : Scan) : Nat := s.ret.getD len

/-! ## What it is for -/

/-- The buffers are equal on `n` bytes. -/
def Agree (n : Nat) : Prop := ∀ j, j < n → m (a + j) = m (b + j)

/-- No read is outside the buffers. -/
def Inside (l : List (Nat × Nat)) : Prop := ∀ x ∈ l, x.1 + x.2 ≤ len

/-- The scan that has ended in `s` is a correct comparison. -/
structure Correct (s : Scan) : Prop where
  eq_iff : s.result len = len ↔ Agree m a b len
  found : ¬ Agree m a b len → s.result len < len ∧ Agree m a b (s.result len) ∧
    ∃ j, s.result len ≤ j ∧ j ≤ s.result len + 3 ∧ j < len ∧ m (a + j) ≠ m (b + j)
  inside : Inside len s.reads

/-- Where the first loop ends if it finds no difference. -/
def alignedAt : Nat := if a % 4 = b % 4 then min len ((4 - a % 4) % 4) else len

/-- The second look at the word at `w` does not stop the hart, is inside the buffers, and shows a difference.
-/
def LookAgain (w : Nat) : Prop :=
  (a % 4 = 0 ∧ b % 4 = 0) ∧ 4 * w + 4 ≤ len ∧ word m (a + 4 * w) ≠ word m (b + 4 * w)

/-- The first word that differs, if a word loop finds it, differs at the second look too. -/
def SecondLook : Prop :=
  ∀ w, alignedAt a b len ≤ w → (w - alignedAt a b len) % 4 = 0 → w + 4 ≤ len → Agree m a b w →
    word m (a + w) ≠ word m (b + w) → LookAgain m a b len w

/-! ## Words and alignment -/

variable {m a b len} {s : Scan}

theorem word_eq_iff {x y : Nat} : word m x = word m y ↔ ∀ j, j < 4 → m (x + j) = m (y + j) := by
  have hx := fun j => (m (x + j)).isLt
  have hy := fun j => (m (y + j)).isLt
  constructor
  · intro h j hj
    have hx₀ := hx 0
    have hx₁ := hx 1
    have hx₂ := hx 2
    have hy₀ := hy 0
    have hy₁ := hy 1
    have hy₂ := hy 2
    simp only [Nat.add_zero] at hx₀ hy₀
    unfold word at h
    apply BitVec.eq_of_toNat_eq
    rcases (by omega : j = 0 ∨ j = 1 ∨ j = 2 ∨ j = 3) with rfl | rfl | rfl | rfl
    · rw [Nat.add_zero, Nat.add_zero]
      omega
    all_goals omega
  · intro h
    unfold word
    have h₀ := h 0 (by decide)
    simp only [Nat.add_zero] at h₀
    rw [h₀, h 1 (by decide), h 2 (by decide), h 3 (by decide)]

theorem aligned_iff {x y : Nat} : (x ||| y) &&& 3 = 0 ↔ x % 4 = 0 ∧ y % 4 = 0 := by
  have hmask : (x ||| y) &&& 3 = (x ||| y) % 2 ^ 2 := Nat.and_two_pow_sub_one_eq_mod (x ||| y) 2
  rw [hmask, Nat.or_mod_two_pow, Nat.or_eq_zero_iff]

theorem Agree.mono {n n' : Nat} (h : Agree m a b n) (hle : n' ≤ n) : Agree m a b n' :=
  fun j hj => h j (Nat.lt_of_lt_of_le hj hle)

theorem Agree.succ {n : Nat} (h : Agree m a b n) (heq : m (a + n) = m (b + n)) : Agree m a b (n + 1) := by
  intro j hj
  rcases Nat.lt_succ_iff_lt_or_eq.mp hj with hlt | rfl
  · exact h j hlt
  · exact heq

theorem Agree.add_word {n : Nat} (h : Agree m a b n) (heq : word m (a + n) = word m (b + n)) :
    Agree m a b (n + 4) := by
  intro j hj
  by_cases hlt : j < n
  · exact h j hlt
  · have hbyte := word_eq_iff.mp heq (j - n) (by omega)
    rwa [Nat.add_assoc, Nat.add_assoc, Nat.add_sub_cancel' (by omega)] at hbyte

theorem Inside.append {l : List (Nat × Nat)} (h : Inside len l) {off n : Nat} (hle : off + n ≤ len) :
    Inside len (l ++ [(off, n)]) := by
  intro x hx
  rcases List.mem_append.mp hx with hx | hx
  · exact h x hx
  · rw [List.mem_singleton.mp hx]
    exact hle

theorem alignedAt_le : alignedAt a b len ≤ len := by
  unfold alignedAt
  split
  · exact Nat.min_le_left _ _
  · exact Nat.le_refl _

/-- The first loop goes on as long as it is short of that place. -/
theorem unaligned_iff {i : Nat} (hi : i ≤ alignedAt a b len) :
    i < len ∧ ((a + i) ||| (b + i)) &&& 3 ≠ 0 ↔ i < alignedAt a b len := by
  rw [ne_eq, aligned_iff]
  unfold alignedAt at hi ⊢
  by_cases hmod : a % 4 = b % 4
  · rw [if_pos hmod] at hi ⊢
    omega
  · rw [if_neg hmod] at hi ⊢
    omega

/-! ## The invariants -/

/-- The place the scan has come to. -/
def Scan.pos (s : Scan) : Nat := s.i + 4 * s.k

/-- No difference so far. -/
structure Fine (m : Nat → BitVec 8) (a b len : Nat) (s : Scan) : Prop where
  ret : s.ret = none
  agree : Agree m a b s.pos
  pos_le : s.pos ≤ len
  inside : Inside len s.reads

/-- A difference found and returned. -/
def Found (m : Nat → BitVec 8) (a b len : Nat) (s : Scan) : Prop :=
  ∃ r, s.ret = some r ∧ r < len ∧ Agree m a b r ∧ (∃ j, r ≤ j ∧ j ≤ r + 3 ∧ j < len ∧ m (a + j) ≠ m (b + j)) ∧
    Inside len s.reads

/-- A read outside, or a difference passed over. -/
def Missed (m : Nat → BitVec 8) (a b len : Nat) (s : Scan) : Prop :=
  ¬ Inside len s.reads ∨ ∃ d, d < len ∧ m (a + d) ≠ m (b + d) ∧ d < s.ret.getD s.pos

theorem Found.correct (h : Found m a b len s) : Correct m a b len s := by
  obtain ⟨r, hret, hlt, hagree, ⟨j, hrj, hjr, hj, hne⟩, hin⟩ := h
  have hres : s.result len = r := by
    unfold Scan.result
    rw [hret]
    rfl
  have hdiffer : ¬ Agree m a b len := fun hall => hne (hall j hj)
  refine ⟨?_, fun _ => ?_, hin⟩
  · rw [hres]
    exact ⟨fun heq => absurd heq (by omega), fun hall => absurd hall hdiffer⟩
  · rw [hres]
    exact ⟨hlt, hagree, j, hrj, hjr, hj, hne⟩

theorem Fine.correct (h : Fine m a b len s) (hpos : s.pos = len) : Correct m a b len s := by
  have hres : s.result len = len := by
    unfold Scan.result
    rw [h.ret]
    rfl
  have hall : Agree m a b len := hpos ▸ h.agree
  exact ⟨⟨fun _ => hall, fun _ => hres⟩, fun hnot => absurd hall hnot, h.inside⟩

theorem Missed.mono {t : Scan} (h : Missed m a b len s) {l : List (Nat × Nat)}
    (hreads : t.reads = s.reads ++ l) (hpos : s.ret.getD s.pos ≤ t.ret.getD t.pos) : Missed m a b len t := by
  rcases h with hout | ⟨d, hd, hne, hlt⟩
  · refine Or.inl fun hin => hout fun x hx => hin x ?_
    rw [hreads]
    exact List.mem_append_left l hx
  · exact Or.inr ⟨d, hd, hne, Nat.lt_of_lt_of_le hlt hpos⟩

theorem Missed.not_correct (h : Missed m a b len s) (hpos : s.pos ≤ len) : ¬ Correct m a b len s := by
  intro hcorrect
  rcases h with hout | ⟨d, hd, hne, hlt⟩
  · exact hout hcorrect.inside
  · have hdiffer : ¬ Agree m a b len := fun hall => hne (hall d hd)
    obtain ⟨hres, hagree, -⟩ := hcorrect.found hdiffer
    have hle : s.ret.getD s.pos ≤ s.result len := by
      unfold Scan.result
      cases s.ret with
      | none => exact hpos
      | some r => exact Nat.le_refl r
    exact hne (hagree d (Nat.lt_of_lt_of_le hlt hle))

/-! ## The loops over bytes -/

/-- A byte is compared: on with it, or the difference is here. -/
theorem byteStep_cases (h : Fine m a b len s) (hk : s.k = 0) (hi : s.i < len) :
    (∃ s', byteStep m a b s = some (.yield s') ∧ Fine m a b len s' ∧ s'.k = 0 ∧ s'.i = s.i + 1) ∨
    ∃ s', byteStep m a b s = some (.done s') ∧ Found m a b len s' ∧ ¬ Agree m a b (s.i + 1) := by
  have hpos : s.pos = s.i := by
    unfold Scan.pos
    omega
  have hread : Inside len (s.reads ++ [(s.i, 1)]) := h.inside.append hi
  have hagree : Agree m a b s.i := hpos ▸ h.agree
  by_cases hne : m (a + s.i) ≠ m (b + s.i)
  · refine Or.inr ⟨_, if_pos hne, ⟨s.i, rfl, hi, hagree, ⟨s.i, by omega, by omega, hi, hne⟩, hread⟩, ?_⟩
    exact fun hall => hne (hall s.i (Nat.lt_succ_self _))
  · have heq : m (a + s.i) = m (b + s.i) := Decidable.not_not.mp hne
    refine Or.inl ⟨_, if_neg hne, ⟨h.ret, ?_, ?_, hread⟩, hk, rfl⟩
    · have hnext : s.i + 1 + 4 * s.k = s.i + 1 := by omega
      unfold Scan.pos
      rw [hnext]
      exact hagree.succ heq
    · change s.i + 1 + 4 * s.k ≤ len
      omega

/-- The first loop: no difference up to its end, or one before it. -/
theorem total_prologue :
    Total (fun s => s = start) (prologue m a b len) (fun s =>
      (Fine m a b len s ∧ s.k = 0 ∧ s.i = alignedAt a b len) ∨
      (Found m a b len s ∧ ¬ Agree m a b (alignedAt a b len))) := by
  have hloop : Total (fun s => Fine m a b len s ∧ s.k = 0 ∧ s.i ≤ alignedAt a b len)
    (prologue m a b len) (fun s =>
      (Fine m a b len s ∧ s.k = 0 ∧ s.i = alignedAt a b len) ∨
      (Found m a b len s ∧ ¬ Agree m a b (alignedAt a b len))) := by
    apply Total.whileDo (fun s => alignedAt a b len - s.i)
    · rintro s ⟨hfine, hk, hi⟩ hc
      have hgo : s.i < alignedAt a b len := by
        apply (unaligned_iff hi).mp
        simpa using hc
      have hle : alignedAt a b len ≤ len := alignedAt_le
      rcases byteStep_cases hfine hk (by omega) with ⟨s', hb, hfine', hk', hi'⟩ | ⟨s', hb, hfound, hdiffer⟩
      · exact Or.inl ⟨s', hb, ⟨hfine', hk', by omega⟩, by omega⟩
      · exact Or.inr ⟨s', hb, Or.inr ⟨hfound, fun hall => hdiffer (hall.mono hgo)⟩⟩
    · rintro s ⟨hfine, hk, hi⟩ hc
      have hstop : ¬ s.i < alignedAt a b len := by
        rw [← unaligned_iff hi]
        simpa using hc
      exact Or.inl ⟨hfine, hk, by omega⟩
  apply hloop.mono
  · rintro s rfl
    refine ⟨⟨rfl, ?_, Nat.zero_le _, ?_⟩, rfl, Nat.zero_le _⟩
    · exact fun j hj => absurd hj (Nat.not_lt_zero j)
    · exact fun x hx => absurd hx List.not_mem_nil
  · exact fun s hs => hs

/-- The last loop finds the difference if there is one. -/
theorem total_trailing {i₀ : Nat} :
    Total (fun s => Fine m a b len s ∧ s.i = i₀ ∧ s.k = (len - i₀) / 4) (trailing m a b len)
      (Correct m a b len) := by
  have hstart : Total (fun s => Fine m a b len s ∧ s.i = i₀ ∧ s.k = (len - i₀) / 4)
      (act fun s => { s with i := s.i + (len - s.i) / 4 * 4, k := 0 })
      (fun s => Fine m a b len s ∧ s.k = 0 ∧ s.i ≤ len) := by
    apply Total.act
    rintro s ⟨hfine, hi, hk⟩
    have hpos : s.pos = s.i + (len - s.i) / 4 * 4 := by
      unfold Scan.pos
      rw [hk, hi]
      omega
    have hle := hfine.pos_le
    have hagree := hfine.agree
    rw [hpos] at hle hagree
    exact ⟨⟨hfine.ret, hagree, hle, hfine.inside⟩, rfl, hle⟩
  have hloop : Total (fun s => Fine m a b len s ∧ s.k = 0 ∧ s.i ≤ len)
      (whileDo (fun s => decide (s.i < len)) (byteStep m a b)) (Correct m a b len) := by
    apply Total.whileDo (fun s => len - s.i)
    · rintro s ⟨hfine, hk, hi⟩ hc
      have hlt : s.i < len := by simpa using hc
      rcases byteStep_cases hfine hk hlt with ⟨s', hb, hfine', hk', hi'⟩ | ⟨s', hb, hfound, -⟩
      · exact Or.inl ⟨s', hb, ⟨hfine', hk', by omega⟩, by omega⟩
      · exact Or.inr ⟨s', hb, hfound.correct⟩
    · rintro s ⟨hfine, hk, hi⟩ hc
      have hge : ¬ s.i < len := by simpa using hc
      apply hfine.correct
      unfold Scan.pos
      omega
  exact hstart.seq hloop

/-- Once a difference has been passed over, the last loop does not make up for it. -/
theorem partial_trailing_missed {i₀ : Nat} (hi₀ : i₀ ≤ len) :
    Partial (fun s => Missed m a b len s ∧ s.ret = none ∧ s.i = i₀ ∧ s.k = (len - i₀) / 4) (trailing m a b len)
      (fun s => ¬ Correct m a b len s) := by
  have hstart : Partial (fun s => Missed m a b len s ∧ s.ret = none ∧ s.i = i₀ ∧ s.k = (len - i₀) / 4)
      (act fun s => { s with i := s.i + (len - s.i) / 4 * 4, k := 0 })
      (fun s => Missed m a b len s ∧ s.ret = none ∧ s.k = 0 ∧ s.i ≤ len) := by
    apply Partial.act
    rintro s ⟨hmissed, hret, hi, hk⟩
    refine ⟨hmissed.mono (List.append_nil _).symm ?_, hret, rfl, ?_⟩
    · rw [hret]
      change s.i + 4 * s.k ≤ s.i + (len - s.i) / 4 * 4 + 4 * 0
      rw [hk, hi]
      omega
    · change s.i + (len - s.i) / 4 * 4 ≤ len
      omega
  have hloop : Partial (fun s => Missed m a b len s ∧ s.ret = none ∧ s.k = 0 ∧ s.i ≤ len)
      (whileDo (fun s => decide (s.i < len)) (byteStep m a b)) (fun s => ¬ Correct m a b len s) := by
    apply Partial.whileDo
    · rintro s s' ⟨hmissed, hret, hk, hi⟩ hc hb
      have hlt : s.i < len := by simpa using hc
      simp only [byteStep] at hb
      split at hb
      · cases hb
      · cases hb
        refine ⟨hmissed.mono rfl ?_, hret, hk, hlt⟩
        rw [hret]
        change s.i + 4 * s.k ≤ s.i + 1 + 4 * s.k
        omega
    · rintro s s' ⟨hmissed, hret, hk, hi⟩ hc hb
      have hpos : s.pos = s.i := by
        unfold Scan.pos
        omega
      simp only [byteStep] at hb
      split at hb
      · cases hb
        refine Missed.not_correct (hmissed.mono rfl ?_) ?_
        · rw [hret, hpos]
          exact Nat.le_refl _
        · change s.i + 4 * s.k ≤ len
          omega
      · cases hb
    · rintro s ⟨hmissed, hret, hk, hi⟩ hc
      apply hmissed.not_correct
      unfold Scan.pos
      omega
  exact hstart.seq hloop

/-! ## The loop over words -/

/-- Both buffers have a word at the place of the scan. -/
def AtWord (a b : Nat) (s : Scan) : Prop := (a + s.pos) % 4 = 0 ∧ (b + s.pos) % 4 = 0

theorem lw_of_aligned {addr : Nat} (h : addr % 4 = 0) : lw m addr = some (word m addr) := if_pos h

theorem lw_of_misaligned {addr : Nat} (h : addr % 4 ≠ 0) : lw m addr = none := if_neg h

theorem wordStep_of_eq (hat : AtWord a b s) (h : word m (a + s.pos) = word m (b + s.pos)) :
    wordStep m a b s = some (.yield { s with k := s.k + 1, reads := s.reads ++ [(s.pos, 4)] }) := by
  have hpos : s.i + 4 * s.k = s.pos := rfl
  have ha : lw m (a + s.pos) = some (word m (a + s.pos)) := lw_of_aligned hat.1
  have hb : lw m (b + s.pos) = some (word m (b + s.pos)) := lw_of_aligned hat.2
  simp [wordStep, hpos, ha, hb, h]

/-- A word that differs is looked at again, if both buffers have a word there. -/
theorem wordStep_of_ne (hat : AtWord a b s) (h : word m (a + s.pos) ≠ word m (b + s.pos)) :
    wordStep m a b s =
      if a % 4 = 0 ∧ b % 4 = 0 then
        some (if word m (a + 4 * s.pos) ≠ word m (b + 4 * s.pos) then
          .done { s with ret := some s.pos, reads := s.reads ++ [(s.pos, 4)] ++ [(4 * s.pos, 4)] }
        else .yield { s with k := s.k + 1, reads := s.reads ++ [(s.pos, 4)] ++ [(4 * s.pos, 4)] })
      else none := by
  have hpos : s.i + 4 * s.k = s.pos := rfl
  have hbase : s.i + s.k * 4 = s.pos := by
    unfold Scan.pos
    omega
  have ha : lw m (a + s.pos) = some (word m (a + s.pos)) := lw_of_aligned hat.1
  have hb : lw m (b + s.pos) = some (word m (b + s.pos)) := lw_of_aligned hat.2
  by_cases ha4 : a % 4 = 0
  · have ha' : lw m (a + 4 * s.pos) = some (word m (a + 4 * s.pos)) := lw_of_aligned (by omega)
    by_cases hb4 : b % 4 = 0
    · have hb' : lw m (b + 4 * s.pos) = some (word m (b + 4 * s.pos)) := lw_of_aligned (by omega)
      rw [if_pos ⟨ha4, hb4⟩]
      by_cases hne : word m (a + 4 * s.pos) = word m (b + 4 * s.pos)
      · simp [wordStep, hpos, hbase, ha, hb, h, ha', hb', hne]
      · simp [wordStep, hpos, hbase, ha, hb, h, ha', hb', hne]
    · have hb' : lw m (b + 4 * s.pos) = none := lw_of_misaligned (by omega)
      rw [if_neg (fun h => hb4 h.2)]
      simp [wordStep, hpos, hbase, ha, hb, h, ha', hb']
  · have ha' : lw m (a + 4 * s.pos) = none := lw_of_misaligned (by omega)
    rw [if_neg (fun h => ha4 h.1)]
    simp [wordStep, hpos, hbase, ha, hb, h, ha']

/-- Where the first loop ends short of the end of the buffers, both are aligned, and so they stay. -/
theorem atWord_of_lt (hi : s.i = alignedAt a b len) (hlt : s.i < len) : AtWord a b s := by
  unfold alignedAt at hi
  unfold AtWord Scan.pos
  by_cases hmod : a % 4 = b % 4
  · rw [if_pos hmod] at hi
    omega
  · rw [if_neg hmod] at hi
    omega

/-- A word that differs has a byte that does. -/
theorem exists_byte_ne {w : Nat} (h : word m (a + w) ≠ word m (b + w)) :
    ∃ j, w ≤ j ∧ j ≤ w + 3 ∧ m (a + j) ≠ m (b + j) := by
  rw [ne_eq, word_eq_iff] at h
  obtain ⟨j, hj⟩ := Classical.not_forall.mp h
  obtain ⟨hlt, hne⟩ := Classical.not_imp.mp hj
  rw [Nat.add_assoc, Nat.add_assoc] at hne
  exact ⟨w + j, by omega, by omega, hne⟩

/-- The loop over words, if the second look shows what the first has found. -/
theorem total_words (hlook : SecondLook m a b len) :
    Total (fun s => Fine m a b len s ∧ s.k = 0 ∧ s.i = alignedAt a b len) (words m a b len) (fun s =>
      (Fine m a b len s ∧ s.i = alignedAt a b len ∧ s.k = (len - alignedAt a b len) / 4) ∨
      Found m a b len s) := by
  have hloop : Total
      (fun s => Fine m a b len s ∧ s.i = alignedAt a b len ∧ s.k ≤ (len - alignedAt a b len) / 4)
      (words m a b len) (fun s =>
        (Fine m a b len s ∧ s.i = alignedAt a b len ∧ s.k = (len - alignedAt a b len) / 4) ∨
        Found m a b len s) := by
    apply Total.whileDo (fun s => (len - alignedAt a b len) / 4 - s.k)
    · rintro s ⟨hfine, hi, hk⟩ hc
      have hgo : s.k < (len - alignedAt a b len) / 4 := by
        rw [← hi]
        simpa using hc
      have hpos : s.pos = alignedAt a b len + 4 * s.k := by rw [← hi]; rfl
      have hread : Inside len (s.reads ++ [(s.pos, 4)]) := hfine.inside.append (by omega)
      have hat : AtWord a b s := atWord_of_lt hi (by omega)
      by_cases hne : word m (a + s.pos) = word m (b + s.pos)
      · refine Or.inl ⟨_, wordStep_of_eq hat hne, ⟨⟨hfine.ret, ?_, ?_, hread⟩, hi, hgo⟩, ?_⟩
        · exact hfine.agree.add_word hne
        · change s.i + 4 * (s.k + 1) ≤ len
          omega
        · change (len - alignedAt a b len) / 4 - (s.k + 1) < (len - alignedAt a b len) / 4 - s.k
          omega
      · obtain ⟨halign, hroom, hagain⟩ := hlook s.pos (by omega) (by omega) (by omega) hfine.agree hne
        obtain ⟨j, hj, hj', hbyte⟩ := exists_byte_ne hne
        have hstep := (wordStep_of_ne hat hne).trans (if_pos halign)
        rw [if_pos hagain] at hstep
        refine Or.inr ⟨_, hstep, Or.inr ⟨s.pos, rfl, by omega, hfine.agree, ?_, ?_⟩⟩
        · exact ⟨j, hj, hj', by omega, hbyte⟩
        · exact hread.append hroom
    · rintro s ⟨hfine, hi, hk⟩ hc
      have hstop : ¬ s.k < (len - alignedAt a b len) / 4 := by
        rw [← hi]
        simpa using hc
      exact Or.inl ⟨hfine, hi, by omega⟩
  apply hloop.mono
  · rintro s ⟨hfine, hk, hi⟩
    exact ⟨hfine, hi, by omega⟩
  · exact fun s hs => hs

/-- On the way to the word at `w`, where the loop is to miss a difference, or past it. -/
structure Passing (m : Nat → BitVec 8) (a b len w : Nat) (s : Scan) : Prop where
  ret : s.ret = none
  aligned : s.i = alignedAt a b len
  bound : s.k ≤ (len - alignedAt a b len) / 4
  state : (Fine m a b len s ∧ s.pos ≤ w) ∨ Missed m a b len s

section Passing

variable {w : Nat}

theorem Passing.pos_eq (h : Passing m a b len w s) : s.pos = alignedAt a b len + 4 * s.k := by
  rw [← h.aligned]
  rfl

/-- What has been missed stays missed in the next iteration. -/
theorem Passing.ret_le (h : Passing m a b len w s) (reads : List (Nat × Nat)) :
    s.ret.getD s.pos ≤ { s with k := s.k + 1, reads := reads }.ret.getD
      { s with k := s.k + 1, reads := reads }.pos := by
  dsimp only
  rw [h.ret]
  change s.i + 4 * s.k ≤ s.i + 4 * (s.k + 1)
  omega

/-- No word before `w` differs. -/
theorem pos_eq_of_ne (hagree : Agree m a b w) (hw : alignedAt a b len ≤ w)
    (hmod : (w - alignedAt a b len) % 4 = 0) (hpos : s.pos = alignedAt a b len + 4 * s.k) (hle : s.pos ≤ w)
    (hne : word m (a + s.pos) ≠ word m (b + s.pos)) : s.pos = w := by
  have hge : ¬ s.pos + 4 ≤ w := by
    intro hlt
    obtain ⟨j, hj, hj', hbyte⟩ := exists_byte_ne hne
    exact hbyte (hagree j (by omega))
  omega

/-- An iteration that finds nothing. -/
theorem Passing.of_eq (h : Passing m a b len w s) (hgo : s.k < (len - alignedAt a b len) / 4)
    (hw : alignedAt a b len ≤ w) (hmod : (w - alignedAt a b len) % 4 = 0)
    (hdiffer : word m (a + w) ≠ word m (b + w)) (heq : word m (a + s.pos) = word m (b + s.pos)) :
    Passing m a b len w { s with k := s.k + 1, reads := s.reads ++ [(s.pos, 4)] } := by
  have hpos := h.pos_eq
  refine ⟨h.ret, h.aligned, hgo, ?_⟩
  rcases h.state with ⟨hfine, hle⟩ | hmissed
  · have hnot : s.pos ≠ w := fun heq' => hdiffer (heq' ▸ heq)
    have hle' : s.i + 4 * (s.k + 1) ≤ w := by
      rw [h.aligned]
      omega
    have hlen : s.i + 4 * (s.k + 1) ≤ len := by
      rw [h.aligned]
      omega
    have hread : Inside len (s.reads ++ [(s.pos, 4)]) := hfine.inside.append (by omega)
    exact Or.inl ⟨⟨h.ret, hfine.agree.add_word heq, hlen, hread⟩, hle'⟩
  · exact Or.inr (hmissed.mono rfl (h.ret_le _))

/-- The word at `w` differs, and the second look does not show it. -/
theorem Passing.of_ne (h : Passing m a b len w s) (hgo : s.k < (len - alignedAt a b len) / 4)
    (hw : alignedAt a b len ≤ w) (hmod : (w - alignedAt a b len) % 4 = 0) (hin : w + 4 ≤ len)
    (hagree : Agree m a b w) (hne : word m (a + s.pos) ≠ word m (b + s.pos)) :
    Passing m a b len w { s with k := s.k + 1, reads := s.reads ++ [(s.pos, 4)] ++ [(4 * s.pos, 4)] } := by
  refine ⟨h.ret, h.aligned, hgo, Or.inr ?_⟩
  rcases h.state with ⟨-, hle⟩ | hmissed
  · have hfirst := pos_eq_of_ne hagree hw hmod h.pos_eq hle hne
    obtain ⟨j, hj, hj', hbyte⟩ := exists_byte_ne hne
    refine Or.inr ⟨j, by omega, hbyte, ?_⟩
    dsimp only
    rw [h.ret]
    change j < s.i + 4 * (s.k + 1)
    rw [h.aligned]
    have hpos := h.pos_eq
    omega
  · exact hmissed.mono (List.append_assoc _ _ _) (h.ret_le _)

/-- A difference that the second look shows, if only outside of the buffers. -/
theorem Passing.not_correct (h : Passing m a b len w s) (hgo : s.k < (len - alignedAt a b len) / 4)
    (hw : alignedAt a b len ≤ w) (hmod : (w - alignedAt a b len) % 4 = 0) (hagree : Agree m a b w)
    (hover : ¬ LookAgain m a b len w) (halign : a % 4 = 0 ∧ b % 4 = 0)
    (hne : word m (a + s.pos) ≠ word m (b + s.pos))
    (hagain : word m (a + 4 * s.pos) ≠ word m (b + 4 * s.pos)) :
    ¬ Correct m a b len
      { s with ret := some s.pos, reads := s.reads ++ [(s.pos, 4)] ++ [(4 * s.pos, 4)] } := by
  have hmissed : Missed m a b len
      { s with ret := some s.pos, reads := s.reads ++ [(s.pos, 4)] ++ [(4 * s.pos, 4)] } := by
    rcases h.state with ⟨-, hle⟩ | hmissed
    · have hfirst := pos_eq_of_ne hagree hw hmod h.pos_eq hle hne
      refine Or.inl fun hinside => hover ⟨halign, ?_, hfirst ▸ hagain⟩
      rw [← hfirst]
      exact hinside (4 * s.pos, 4) (by simp)
    · refine hmissed.mono (List.append_assoc _ _ _) ?_
      rw [h.ret]
      exact Nat.le_refl _
  apply hmissed.not_correct
  change s.pos ≤ len
  have hpos := h.pos_eq
  omega

/-- The loop over words, if the second look at the first word that differs does not show it, is outside, or is
not granted. -/
theorem partial_words_missed (hw : alignedAt a b len ≤ w) (hmod : (w - alignedAt a b len) % 4 = 0)
    (hin : w + 4 ≤ len) (hagree : Agree m a b w) (hdiffer : word m (a + w) ≠ word m (b + w))
    (hover : ¬ LookAgain m a b len w) :
    Partial (fun s => Fine m a b len s ∧ s.k = 0 ∧ s.i = alignedAt a b len) (words m a b len) (fun s =>
      ((Missed m a b len s ∧ s.i = alignedAt a b len ∧ s.k = (len - alignedAt a b len) / 4) ∧ s.ret = none) ∨
      (¬ Correct m a b len s ∧ s.ret ≠ none)) := by
  have hloop : Partial (Passing m a b len w) (words m a b len) (fun s =>
      ((Missed m a b len s ∧ s.i = alignedAt a b len ∧ s.k = (len - alignedAt a b len) / 4) ∧ s.ret = none) ∨
      (¬ Correct m a b len s ∧ s.ret ≠ none)) := by
    have hgoes : ∀ s, Passing m a b len w s → decide (s.k < (len - s.i) / 4) = true →
        s.k < (len - alignedAt a b len) / 4 ∧ AtWord a b s := by
      intro s h hc
      have hgo : s.k < (len - alignedAt a b len) / 4 := by
        rw [← h.aligned]
        simpa using hc
      have hi := h.aligned
      exact ⟨hgo, atWord_of_lt hi (by omega)⟩
    apply Partial.whileDo
    · intro s s' h hc hb
      obtain ⟨hgo, hat⟩ := hgoes s h hc
      by_cases heq : word m (a + s.pos) = word m (b + s.pos)
      · rw [wordStep_of_eq hat heq] at hb
        cases hb
        exact h.of_eq hgo hw hmod hdiffer heq
      · rw [wordStep_of_ne hat heq] at hb
        split at hb
        · split at hb
          · cases hb
          · cases hb
            exact h.of_ne hgo hw hmod hin hagree heq
        · cases hb
    · intro s s' h hc hb
      obtain ⟨hgo, hat⟩ := hgoes s h hc
      by_cases heq : word m (a + s.pos) = word m (b + s.pos)
      · rw [wordStep_of_eq hat heq] at hb
        cases hb
      · rw [wordStep_of_ne hat heq] at hb
        split at hb
        · rename_i halign
          split at hb
          · rename_i hagain
            cases hb
            exact Or.inr ⟨h.not_correct hgo hw hmod hagree hover halign heq hagain, Option.some_ne_none _⟩
          · cases hb
        · cases hb
    · intro s h hc
      have hstop : ¬ s.k < (len - alignedAt a b len) / 4 := by
        rw [← h.aligned]
        simpa using hc
      have hpos := h.pos_eq
      have hbound := h.bound
      rcases h.state with ⟨-, hle⟩ | hmissed
      · -- the loop has passed `w`
        omega
      · exact Or.inl ⟨⟨hmissed, h.aligned, by omega⟩, h.ret⟩
  intro n s s' hs he
  obtain ⟨hfine, hk, hi⟩ := hs
  refine hloop n s s' ⟨hfine.ret, hi, by omega, Or.inl ⟨hfine, ?_⟩⟩ he
  unfold Scan.pos
  omega

end Passing

/-! ## The whole comparison -/

theorem total_unlessReturned {P Q : Scan → Prop} {p : Prog Scan}
    (hp : Total (fun s => P s ∧ s.ret = none) p Q) :
    Total (fun s => (P s ∧ s.ret = none) ∨ (Q s ∧ s.ret ≠ none)) (unlessReturned p) Q := by
  rintro s (⟨hs, hnone⟩ | ⟨hs, hsome⟩)
  · obtain ⟨s', hends, hq⟩ := hp s ⟨hs, hnone⟩
    refine ⟨s', Ends.bindState ?_, hq⟩
    rw [if_pos hnone]
    exact hends
  · refine ⟨s, Ends.bindState ?_, hs⟩
    rw [if_neg hsome]
    exact Ends.act id s

theorem Found.ret_ne (h : Found m a b len s) : s.ret ≠ none := by
  obtain ⟨r, hret, -⟩ := h
  rw [hret]
  exact Option.some_ne_none r

theorem total_correct (hlook : SecondLook m a b len) :
    Total (fun s => s = start) (memdiff32 m a b len) (Correct m a b len) := by
  let i₀ := alignedAt a b len
  have hwords : Total (fun s => (Fine m a b len s ∧ s.k = 0 ∧ s.i = i₀) ∧ s.ret = none) (words m a b len)
      (fun s => (Fine m a b len s ∧ s.i = i₀ ∧ s.k = (len - i₀) / 4) ∨ Found m a b len s) :=
    (total_words hlook).mono (fun _ hs => hs.1) (fun _ hs => hs)
  have htrailing : Total (fun s => (Fine m a b len s ∧ s.i = i₀ ∧ s.k = (len - i₀) / 4) ∧ s.ret = none)
      (trailing m a b len) (Correct m a b len) :=
    total_trailing.mono (fun _ hs => hs.1) (fun _ hs => hs)
  refine total_prologue.seq (Total.seq ((total_unlessReturned hwords).mono ?_ (fun s hs => hs))
    ((total_unlessReturned htrailing).mono ?_ (fun s hs => hs)))
  · rintro s (hs | ⟨hfound, -⟩)
    · exact Or.inl ⟨hs, hs.1.ret⟩
    · exact Or.inr ⟨Or.inr hfound, hfound.ret_ne⟩
  · rintro s (hs | hfound)
    · exact Or.inl ⟨hs, hs.1.ret⟩
    · exact Or.inr ⟨hfound.correct, hfound.ret_ne⟩

theorem partial_unlessReturned {P Q : Scan → Prop} {p : Prog Scan}
    (hp : Partial (fun s => P s ∧ s.ret = none) p Q) :
    Partial (fun s => (P s ∧ s.ret = none) ∨ (Q s ∧ s.ret ≠ none)) (unlessReturned p) Q := by
  rintro n s s' (⟨hs, hnone⟩ | ⟨hs, hsome⟩) he
  · refine hp n s s' ⟨hs, hnone⟩ ?_
    simpa [unlessReturned, bindState, hnone] using he
  · have hsame : s = s' := by simpa [unlessReturned, bindState, hsome, act] using he
    exact hsame ▸ hs

theorem partial_incorrect (hlook : ¬ SecondLook m a b len) {s : Scan}
    (hends : Ends (memdiff32 m a b len) start s) : ¬ Correct m a b len s := by
  obtain ⟨w, hw, hmod, hin, hagree, hdiffer, hover⟩ : ∃ w, alignedAt a b len ≤ w ∧
      (w - alignedAt a b len) % 4 = 0 ∧ w + 4 ≤ len ∧ Agree m a b w ∧ word m (a + w) ≠ word m (b + w) ∧
      ¬ LookAgain m a b len w := by
    unfold SecondLook at hlook
    simpa only [Classical.not_forall, exists_prop] using hlook
  let i₀ := alignedAt a b len
  have hprologue : Total (fun s => s = start) (prologue m a b len)
      (fun s => Fine m a b len s ∧ s.k = 0 ∧ s.i = i₀) := by
    apply total_prologue.mono (fun s hs => hs)
    rintro s (hs | ⟨-, hearly⟩)
    · exact hs
    · -- the first loop has found nothing, as the buffers agree up to `w`
      exact absurd (hagree.mono hw) hearly
  have hwords : Partial (fun s => (Fine m a b len s ∧ s.k = 0 ∧ s.i = i₀) ∧ s.ret = none) (words m a b len)
      (fun s => ((Missed m a b len s ∧ s.i = i₀ ∧ s.k = (len - i₀) / 4) ∧ s.ret = none) ∨
        (¬ Correct m a b len s ∧ s.ret ≠ none)) :=
    fun n s s' hs => partial_words_missed hw hmod hin hagree hdiffer hover n s s' hs.1
  have htrailing : Partial (fun s => (Missed m a b len s ∧ s.i = i₀ ∧ s.k = (len - i₀) / 4) ∧ s.ret = none)
      (trailing m a b len) (fun s => ¬ Correct m a b len s) :=
    fun n s s' hs => partial_trailing_missed alignedAt_le n s s' ⟨hs.1.1, hs.2, hs.1.2⟩
  refine hprologue.seq_partial (Partial.seq ?_ (partial_unlessReturned htrailing)) rfl hends
  intro n s s' hs he
  exact partial_unlessReturned hwords n s s' (Or.inl ⟨hs, hs.1.ret⟩) he

/-- **When `memdiff32` is correct.**  For every memory, every two addresses and every length, the comparison
ends and is correct exactly if the first word that its loop over words finds to differ differs at the second
look as well, and the second look is at a word inside the buffers. -/
theorem memdiff32_correct_iff (m : Nat → BitVec 8) (a b len : Nat) :
    (∃ s, Ends (memdiff32 m a b len) start s ∧ Correct m a b len s) ↔ SecondLook m a b len := by
  constructor
  · rintro ⟨s, hends, hcorrect⟩
    by_contra hlook
    exact partial_incorrect hlook hends hcorrect
  · intro hlook
    exact total_correct hlook start rfl

/-- Eight bytes at 32 and at 64 that differ in byte 4 only. -/
def corrupted : Nat → BitVec 8 := fun addr => if addr = 68 then 1 else 0

/-- The comparison says that they are equal, and reads behind their end. -/
theorem memdiff32_misses :
    ∃ s, Ends (memdiff32 corrupted 32 64 8) start s ∧ s.result 8 = 8 ∧ ¬ Agree corrupted 32 64 8 ∧
      ¬ Inside 8 s.reads ∧ ¬ Correct corrupted 32 64 8 s := by
  have hdiffer : ¬ Agree corrupted 32 64 8 := fun h => absurd (h 4 (by decide)) (by decide)
  refine ⟨⟨8, 0, none, [(0, 4), (4, 4), (16, 4)]⟩, ⟨4, fun fuel hfuel => ?_⟩, rfl, hdiffer, ?_, ?_⟩
  · obtain ⟨n, rfl⟩ := Nat.exists_eq_add_of_le' hfuel
    rfl
  · exact fun h => absurd (h (16, 4) (by decide)) (by decide)
  · exact fun h => hdiffer (h.eq_iff.mp rfl)

end MemDiff

end Rlc

end CachePool
