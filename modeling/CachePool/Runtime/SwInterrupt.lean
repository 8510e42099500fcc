import CachePool.Lib.Observe
import Mathlib.Data.Fintype.Basic

/-!
# Software interrupts (`snrt_int_sw_*` and `snrt_int_clint_set` in `interrupt.c`)

The flags of 32 harts share a word.  Setting and clearing mask their own bit; reading shifts the word down and
does not mask, so that it sees the flags of the harts above as well.

* `snrtIntSwSet`, `snrtIntSwClear`, `snrtIntSwGet`, `snrtIntClintSet`, `swPollTry` — the bodies between lock
  and release.
* `clint` — harts calling them in any order; a poll waits and is woken any number of times.
* `HartFlag` — one flag on its own: what a hart is to see of the words.
* `pending_snrtIntSwSet`, `pending_snrtIntSwClear`, `pending_snrtIntClintSet` — the writes keep flags apart.
* `snrtIntSwGet_iff`, `swPollTry_iff` — when the two reads show the hart's own flag.
* `observed_iff` — what a hart observes in a run is what it observes of its own flag exactly if at each of its
  reads no flag of a higher hart of the word is pending, or, at a poll, its own is.
-/

set_option autoImplicit false

namespace CachePool

namespace SwInterrupt

/-- The words at `clint_p`, by their offset in words.  An address has 32 bits, an offset thus 30. -/
abbrev Words := BitVec 30 → BitVec 32

/-- `*(clint_p + off)`. -/
def Words.load (m : Words) (off : BitVec 32) : BitVec 32 := m (off.setWidth 30)

def Words.store (m : Words) (off : BitVec 32) (v : BitVec 32) : Words :=
  Function.update m (off.setWidth 30) v

/-- `(hartid & ~0x1f) >> 5`. -/
def wordOf (hartid : BitVec 32) : BitVec 32 := (hartid &&& ~~~0x1f#32) >>> 5

/-- `hartid & 0x1f`. -/
def bitOf (hartid : BitVec 32) : BitVec 32 := hartid &&& 0x1f#32

/-- `snrt_int_sw_clear`. -/
def snrtIntSwClear (m : Words) (hartid : BitVec 32) : Words :=
  m.store (wordOf hartid) (m.load (wordOf hartid) &&& ~~~(1#32 <<< bitOf hartid))

/-- `snrt_int_sw_set`. -/
def snrtIntSwSet (m : Words) (hartid : BitVec 32) : Words :=
  m.store (wordOf hartid) (m.load (wordOf hartid) ||| 1#32 <<< bitOf hartid)

/-- `snrt_int_sw_get`. -/
def snrtIntSwGet (m : Words) (hartid : BitVec 32) : BitVec 32 :=
  m.load (wordOf hartid) >>> bitOf hartid

/-- `snrt_int_clint_set`. -/
def snrtIntClintSet (m : Words) (regOff mask : BitVec 32) : Words :=
  m.store regOff (m.load regOff ||| mask)

/-- The body of the loop of `snrt_int_sw_poll` after `snrt_wfi`: `exit`, and the words. -/
def swPollTry (m : Words) (hartid : BitVec 32) : Bool × Words :=
  if m.load (wordOf hartid) >>> bitOf hartid ≠ 0 then
    (true, m.store (wordOf hartid) (m.load (wordOf hartid) &&& ~~~(1#32 <<< bitOf hartid)))
  else (false, m)

/-! ## Harts at work -/

/-- The words, and which harts are in `snrt_int_sw_poll`. -/
structure State where
  words : Words
  polling : BitVec 32 → Bool

/-- A call by any hart, or the return of `snrt_wfi` in the poll of hart `h`. -/
inductive Action where
  | set (h : BitVec 32)
  | clear (h : BitVec 32)
  | get (h : BitVec 32)
  | clintSet (regOff mask : BitVec 32)
  | poll (h : BitVec 32)
  | wake (h : BitVec 32)
  deriving DecidableEq, Repr

/-- What a read of hart `h`'s flag yields: the result of `snrt_int_sw_get`, or whether the poll returns. -/
inductive Seen where
  | got (r : BitVec 32)
  | returned (b : Bool)
  deriving DecidableEq, Repr

def State.next (s : State) : Action → State
  | .set h => { s with words := snrtIntSwSet s.words h }
  | .clear h => { s with words := snrtIntSwClear s.words h }
  | .get _ => s
  | .clintSet regOff mask => { s with words := snrtIntClintSet s.words regOff mask }
  | .poll h => { s with polling := Function.update s.polling h true }
  | .wake h =>
    if s.polling h then
      { words := (swPollTry s.words h).2
        polling := Function.update s.polling h (!(swPollTry s.words h).1) }
    else s

/-- The system from words `m`, with nobody polling. -/
def clint (m : Words) : Machine State Action where
  init := ⟨m, fun _ => false⟩
  next := State.next

/-- What a step shows of the flag of hart `h`. -/
def seen (h : BitVec 32) (s : State) : Action → Option Seen
  | .get h' => if h = h' then some (.got (snrtIntSwGet s.words h)) else none
  | .wake h' => if h = h' then some (.returned (s.polling h && (swPollTry s.words h).1)) else none
  | _ => none

/-! ## One flag on its own -/

/-- The word at `regOff` holds the flag of `h`, and `mask` has its bit. -/
def covers (regOff mask h : BitVec 32) : Bool :=
  decide (regOff.setWidth 30 = (wordOf h).setWidth 30) && mask.getLsbD (bitOf h).toNat

/-- The flag of one hart, and whether the hart polls it. -/
structure HartFlag where
  pending : Bool
  polling : Bool
  deriving DecidableEq, Repr

/-- The steps that are about the flag of `h`. -/
def names (h : BitVec 32) : Action → Bool
  | .set h' | .clear h' | .get h' | .poll h' | .wake h' => h == h'
  | .clintSet regOff mask => covers regOff mask h

/-- The flag of `h` under a step about it. -/
def HartFlag.next (f : HartFlag) : Action → HartFlag
  | .set _ | .clintSet _ _ => { f with pending := true }
  | .clear _ => { f with pending := false }
  | .get _ => f
  | .poll _ => { f with polling := true }
  | .wake _ => if f.polling && f.pending then ⟨false, false⟩ else f

/-- As documented: a read yields the flag, and a poll returns by consuming it. -/
def HartFlag.seen (f : HartFlag) : Action → Option Seen
  | .get _ => some (.got (if f.pending then 1 else 0))
  | .wake _ => some (.returned (f.polling && f.pending))
  | _ => none

/-- One flag, pending or not, that nobody polls. -/
def flagAlone (pending : Bool) : Machine HartFlag Action where
  init := ⟨pending, false⟩
  next := HartFlag.next

/-! ## Word and bit of a hart -/

variable {m : Words} {h h' : BitVec 32}

theorem toNat_bitOf (h : BitVec 32) : (bitOf h).toNat = h.toNat % 32 := by
  rw [bitOf, BitVec.toNat_and]
  exact Nat.and_two_pow_sub_one_eq_mod h.toNat 5

theorem bitOf_lt (h : BitVec 32) : (bitOf h).toNat < 32 := by
  rw [toNat_bitOf]
  exact Nat.mod_lt _ (by decide)

theorem toNat_wordOf (h : BitVec 32) : (wordOf h).toNat = h.toNat / 32 := by
  have hmask : wordOf h = h >>> 5 := by
    apply BitVec.eq_of_getLsbD_eq
    intro i hi
    rw [wordOf, BitVec.getLsbD_ushiftRight, BitVec.getLsbD_ushiftRight, BitVec.getLsbD_and,
      BitVec.getLsbD_not]
    have hlow : (0x1f#32).getLsbD (5 + i) = false := by
      rw [BitVec.getLsbD, show (0x1f#32).toNat = 2 ^ 5 - 1 by decide, Nat.testBit_two_pow_sub_one]
      simp
    rw [hlow]
    by_cases hb : 5 + i < 32
    · simp [hb]
    · rw [BitVec.getLsbD_of_ge h (5 + i) (by omega)]
      rfl
  rw [hmask, BitVec.toNat_ushiftRight, Nat.shiftRight_eq_div_pow]

/-- The words of two harts are one exactly if the harts are of one group of 32. -/
theorem wordOf_eq_iff :
    (wordOf h).setWidth 30 = (wordOf h').setWidth 30 ↔ h.toNat / 32 = h'.toNat / 32 := by
  have hh := h.isLt
  have hh' := h'.isLt
  rw [← BitVec.toNat_inj, BitVec.toNat_setWidth, BitVec.toNat_setWidth, toNat_wordOf, toNat_wordOf,
    Nat.mod_eq_of_lt (by omega), Nat.mod_eq_of_lt (by omega)]

theorem eq_iff_word_bit :
    h = h' ↔ (wordOf h).setWidth 30 = (wordOf h').setWidth 30 ∧ (bitOf h).toNat = (bitOf h').toNat := by
  rw [wordOf_eq_iff, toNat_bitOf, toNat_bitOf, ← BitVec.toNat_inj]
  omega

theorem decide_eq_word_bit : decide (h = h') = (decide ((wordOf h).setWidth 30 = (wordOf h').setWidth 30) &&
    decide ((bitOf h).toNat = (bitOf h').toNat)) := by
  rw [← Bool.decide_and]
  exact decide_eq_decide.mpr eq_iff_word_bit

/-! ## The flags -/

/-- The flag of `h`. -/
def pending (m : Words) (h : BitVec 32) : Bool := (m.load (wordOf h)).getLsbD (bitOf h).toNat

theorem load_store (m : Words) (off off' v : BitVec 32) :
    (m.store off v).load off' = if off'.setWidth 30 = off.setWidth 30 then v else m.load off' := by
  simp only [Words.store, Words.load, Function.update_apply]

theorem getLsbD_one_shiftLeft (h : BitVec 32) {i : Nat} (hi : i < 32) :
    (1#32 <<< bitOf h).getLsbD i = decide (i = (bitOf h).toNat) := by
  rw [BitVec.shiftLeft_eq', BitVec.getLsbD_shiftLeft, BitVec.getLsbD_one]
  rw [Bool.eq_iff_iff]
  simp
  omega

theorem pending_snrtIntSwSet : pending (snrtIntSwSet m h) h' = (pending m h' || decide (h' = h)) := by
  rw [pending, snrtIntSwSet, load_store, decide_eq_word_bit]
  by_cases hw : (wordOf h').setWidth 30 = (wordOf h).setWidth 30
  · have hload : m.load (wordOf h) = m.load (wordOf h') := congrArg m hw.symm
    rw [if_pos hw, BitVec.getLsbD_or, getLsbD_one_shiftLeft h (bitOf_lt h'), hload]
    simp [hw, pending]
  · simp [hw, pending]

theorem pending_snrtIntSwClear : pending (snrtIntSwClear m h) h' = (pending m h' && !decide (h' = h)) := by
  rw [pending, snrtIntSwClear, load_store, decide_eq_word_bit]
  by_cases hw : (wordOf h').setWidth 30 = (wordOf h).setWidth 30
  · have hload : m.load (wordOf h) = m.load (wordOf h') := congrArg m hw.symm
    rw [if_pos hw, BitVec.getLsbD_and, BitVec.getLsbD_not, getLsbD_one_shiftLeft h (bitOf_lt h'), hload]
    simp [hw, pending, bitOf_lt]
  · simp [hw, pending]

theorem pending_snrtIntClintSet (regOff mask : BitVec 32) :
    pending (snrtIntClintSet m regOff mask) h = (pending m h || covers regOff mask h) := by
  rw [pending, snrtIntClintSet, load_store, covers]
  by_cases hw : (wordOf h).setWidth 30 = regOff.setWidth 30
  · have hload : m.load regOff = m.load (wordOf h) := congrArg m hw.symm
    rw [if_pos hw, BitVec.getLsbD_or, hload]
    simp [hw, pending]
  · simp [hw, Ne.symm hw, pending]

/-! ## The reads -/

/-- No flag of a hart above `h` in its word is pending. -/
def Unobstructed (m : Words) (h : BitVec 32) : Prop :=
  ∀ h' : BitVec 32, h'.toNat / 32 = h.toNat / 32 → h.toNat < h'.toNat → pending m h' = false

theorem unobstructed_iff : Unobstructed m h ↔
    ∀ i, (bitOf h).toNat < i → (m.load (wordOf h)).getLsbD i = false := by
  have hh := h.isLt
  constructor
  · intro hu i hi
    by_cases hi32 : i < 32
    · -- bit `i` is the flag of the hart of that number in the group
      let h' : BitVec 32 := BitVec.ofNat 32 (h.toNat / 32 * 32 + i)
      have hh' : h'.toNat = h.toNat / 32 * 32 + i := by
        rw [BitVec.toNat_ofNat]
        exact Nat.mod_eq_of_lt (by omega)
      rw [toNat_bitOf] at hi
      have hflag := hu h' (by omega) (by omega)
      have hword : m.load (wordOf h') = m.load (wordOf h) := congrArg m (wordOf_eq_iff.mpr (by omega))
      have hbit : (bitOf h').toNat = i := by
        rw [toNat_bitOf]
        omega
      rwa [pending, hword, hbit] at hflag
    · exact BitVec.getLsbD_of_ge _ _ (by omega)
  · intro hbits h' hgroup hlt
    have hword : m.load (wordOf h') = m.load (wordOf h) := congrArg m (wordOf_eq_iff.mpr hgroup)
    rw [pending, hword]
    apply hbits
    rw [toNat_bitOf, toNat_bitOf]
    omega

theorem getLsbD_snrtIntSwGet (i : Nat) :
    (snrtIntSwGet m h).getLsbD i = (m.load (wordOf h)).getLsbD ((bitOf h).toNat + i) := by
  rw [snrtIntSwGet, BitVec.ushiftRight_eq', BitVec.getLsbD_ushiftRight]

/-- **When the read is right**: the flag itself, unless a hart above has one pending. -/
theorem snrtIntSwGet_iff :
    snrtIntSwGet m h = (if pending m h then 1 else 0) ↔ Unobstructed m h := by
  have hflag : ∀ i,
      (if pending m h then 1 else 0 : BitVec 32).getLsbD i = (pending m h && decide (i = 0)) := by
    intro i
    cases pending m h <;> simp
  rw [unobstructed_iff]
  constructor
  · intro heq i hi
    have hi' := congrArg (fun r => r.getLsbD (i - (bitOf h).toNat)) heq
    simp only [getLsbD_snrtIntSwGet, hflag] at hi'
    rw [Nat.add_sub_cancel' (by omega)] at hi'
    simpa [show i - (bitOf h).toNat ≠ 0 by omega] using hi'
  · intro hbits
    apply BitVec.eq_of_getLsbD_eq
    intro i _
    rw [getLsbD_snrtIntSwGet, hflag]
    by_cases hi : i = 0
    · simp [hi, pending]
    · simp [hi, hbits _ (show (bitOf h).toNat < (bitOf h).toNat + i by omega)]

theorem swPollTry_fst : (swPollTry m h).1 = decide (snrtIntSwGet m h ≠ 0) := by
  unfold swPollTry snrtIntSwGet
  split <;> simp_all

/-- **When the poll is right** to return or to stay. -/
theorem swPollTry_iff : (swPollTry m h).1 = pending m h ↔ pending m h = true ∨ Unobstructed m h := by
  rw [swPollTry_fst]
  cases hp : pending m h with
  | true =>
    have hne : snrtIntSwGet m h ≠ 0 := by
      intro hzero
      have hbit := getLsbD_snrtIntSwGet (m := m) (h := h) 0
      rw [hzero] at hbit
      rw [pending] at hp
      simp [hp] at hbit
    simpa using hne
  | false =>
    have hiff := snrtIntSwGet_iff (m := m) (h := h)
    rw [hp] at hiff
    simpa using hiff

/-- The words after the body of the poll's loop. -/
theorem pending_swPollTry :
    pending (swPollTry m h).2 h' = (pending m h' && !(decide (h' = h) && (swPollTry m h).1)) := by
  unfold swPollTry
  split
  · have hclear : pending (snrtIntSwClear m h) h' = (pending m h' && !decide (h' = h)) :=
      pending_snrtIntSwClear
    rw [snrtIntSwClear] at hclear
    simpa using hclear
  · simp

/-! ## Runs -/

/-- The flag of `h` in the words, and its poll. -/
def State.flagOf (s : State) (h : BitVec 32) : HartFlag := ⟨pending s.words h, s.polling h⟩

/-- The condition of a step on what hart `h` is to see. -/
def ClearView (h : BitVec 32) (s : State) : Action → Prop
  | .get h' => h = h' → Unobstructed s.words h
  | .wake h' => h = h' → s.polling h = true → pending s.words h = true ∨ Unobstructed s.words h
  | _ => True

/-- The flag of `h` among all steps: those that are not about it leave it and show nothing. -/
def flagAmong (h : BitVec 32) (b : Bool) : Machine HartFlag Action where
  init := ⟨b, false⟩
  next f a := if names h a then f.next a else f

theorem flagOf_next (s : State) (a : Action) (hview : ClearView h s a) :
    (s.next a).flagOf h = (flagAmong h true).next (s.flagOf h) a := by
  cases a with
  | set h' =>
    by_cases heq : h = h' <;>
      simp [flagAmong, names, HartFlag.next, State.next, State.flagOf, pending_snrtIntSwSet, heq]
  | clear h' =>
    by_cases heq : h = h' <;>
      simp [flagAmong, names, HartFlag.next, State.next, State.flagOf, pending_snrtIntSwClear, heq]
  | get h' => simp [flagAmong, HartFlag.next, State.next, State.flagOf]
  | clintSet regOff mask =>
    cases hc : covers regOff mask h <;>
      simp [flagAmong, names, HartFlag.next, State.next, State.flagOf, pending_snrtIntClintSet, hc]
  | poll h' =>
    by_cases heq : h = h' <;> simp [flagAmong, names, HartFlag.next, State.next, State.flagOf, heq]
  | wake h' =>
    by_cases heq : h = h'
    · subst heq
      cases hpoll : s.polling h with
      | false => simp [flagAmong, HartFlag.next, State.next, State.flagOf, hpoll]
      | true =>
        have hright := swPollTry_iff.mpr (hview rfl hpoll)
        cases hp : pending s.words h <;>
          simp [flagAmong, names, HartFlag.next, State.next, State.flagOf, hpoll, pending_swPollTry,
            hright, hp]
    · cases hpoll : s.polling h' <;>
        simp [flagAmong, names, State.next, State.flagOf, hpoll, heq, pending_swPollTry]

/-- What a step about the flag of `h` is to show, and nothing from the others. -/
def HartFlag.seenAmong (h : BitVec 32) (f : HartFlag) (a : Action) : Option Seen :=
  if names h a then f.seen a else none

theorem seen_isSome (s : State) (f : HartFlag) (a : Action) :
    (seen h s a).isSome = (f.seenAmong h a).isSome := by
  cases a with
  | get h' => by_cases heq : h = h' <;> simp [seen, names, HartFlag.seenAmong, HartFlag.seen, heq]
  | wake h' => by_cases heq : h = h' <;> simp [seen, names, HartFlag.seenAmong, HartFlag.seen, heq]
  | _ => simp [seen, HartFlag.seenAmong, HartFlag.seen]

theorem seen_iff (s : State) (a : Action) :
    seen h s a = (s.flagOf h).seenAmong h a ↔ ClearView h s a := by
  cases a with
  | get h' =>
    by_cases heq : h = h'
    · subst heq
      have hshown : seen h s (.get h) = some (.got (snrtIntSwGet s.words h)) := if_pos rfl
      have hright : (s.flagOf h).seenAmong h (.get h) =
          some (.got (if pending s.words h then 1 else 0)) := if_pos (by simp [names])
      rw [hshown, hright, Option.some_inj, Seen.got.injEq, snrtIntSwGet_iff]
      exact ⟨fun hu _ => hu, fun hu => hu rfl⟩
    · simp [seen, names, HartFlag.seenAmong, ClearView, heq]
  | wake h' =>
    by_cases heq : h = h'
    · subst heq
      have hright := swPollTry_iff (m := s.words) (h := h)
      cases hpoll : s.polling h
      · simp [seen, names, HartFlag.seenAmong, HartFlag.seen, State.flagOf, ClearView, hpoll]
      · simpa [seen, names, HartFlag.seenAmong, HartFlag.seen, State.flagOf, ClearView, hpoll]
          using hright
    · simp [seen, names, HartFlag.seenAmong, ClearView, heq]
  | _ => simp [seen, HartFlag.seenAmong, HartFlag.seen, ClearView]

/-- **When harts see their own flags.**  In a run from the words `m`, what is read of the flag of hart `h` is
what one flag on its own shows under the steps about it, exactly if at each of these reads no flag of a higher
hart of the word is pending, or the read is by a poll and the flag itself is. -/
theorem observed_iff (m : Words) (h : BitVec 32) (as : List Action) :
    (clint m).observed (seen h) (clint m).init as =
        (flagAlone (pending m h)).observed HartFlag.seen (flagAlone (pending m h)).init
          (as.filter (names h)) ↔
      (clint m).Meets (ClearView h) as := by
  have hamong : (flagAlone (pending m h)).observed HartFlag.seen (flagAlone (pending m h)).init
      (as.filter (names h)) =
        (flagAmong h (pending m h)).observed (HartFlag.seenAmong h) (flagAmong h (pending m h)).init as := by
    apply Machine.observed_filter
    · intro f a hin
      simp [flagAmong, flagAlone, HartFlag.seenAmong, hin]
    · intro f a hout
      simp [flagAmong, HartFlag.seenAmong, hout]
  rw [hamong, Machine.meets_iff_meetsFrom]
  apply Machine.observed_eq_iff (R := fun s f => f = s.flagOf h)
  · exact fun s f a _ => seen_isSome s f a
  · rintro s f a rfl
    exact seen_iff s a
  · rintro s f a rfl hview
    exact (flagOf_next s a hview).symm
  · rfl

/-- Hart 0 reads 2 of its flag when only hart 1's is set, and its poll returns without one. -/
theorem observed_higher_flag :
    (clint fun _ => 0).observed (seen 0) (clint fun _ => 0).init [.set 1, .get 0, .poll 0, .wake 0] =
        [.got 2, .returned true] ∧
      (flagAlone false).observed HartFlag.seen (flagAlone false).init
        ([.set 1, .get 0, .poll 0, .wake 0].filter (names 0)) = [.got 0, .returned false] :=
  ⟨by decide, by decide⟩

end SwInterrupt

end CachePool
