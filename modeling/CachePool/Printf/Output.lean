import Mathlib.Data.List.Basic
import Mathlib.Tactic

/-!
# Where `printf` writes (`vendor/printf.c`)

All output goes through a function of type `out_fct_type`, which gets the character, the buffer, the index of
the character and the capacity.  The callers count the index up; it is a `size_t` and wraps at `2 ^ 32`.  A C
character is the Lean one with its code.

* `outBuffer`, `outNull`, `outChar`, `outFct` — the four output functions.
* `Cursor`, `put`, `putAll` — a buffer with the next index, one character, a text.
* `outRev` — `_out_rev`, which pads and turns a number around; `outRev_eq` — the text it puts.
* `putAll_outBuffer`, `putAll_outFct`, `putAll_outChar` — what a text leaves in a buffer of a given capacity,
  with a function of the caller, and on the console.
-/

set_option autoImplicit false

namespace CachePool

namespace Printf

/-- The range of `size_t` and `unsigned int`. -/
abbrev wordSize : Nat := 2 ^ 32

/-- The terminating character of a C string. -/
def nul : Char := Char.ofNat 0

/-- `out_fct_type`: character, buffer, index and capacity, and the buffer after. -/
abbrev OutFct (β : Type) := Char → β → Nat → Nat → β

/-- `_out_buffer`, on a memory that starts at the buffer. -/
def outBuffer : OutFct (Nat → Char) := fun character buffer idx maxlen =>
  if idx < maxlen then Function.update buffer idx character else buffer

/-- `_out_null`. -/
def outNull {β : Type} : OutFct β := fun _ buffer _ _ => buffer

/-- `_out_char`: the text sent to `_putchar`. -/
def outChar : OutFct (List Char) := fun character sent _ _ =>
  if character ≠ nul then sent ++ [character] else sent

/-- `_out_fct`, with the function of the wrapper and its argument. -/
def outFct {α : Type} (fct : Char → α → α) : OutFct α := fun character arg _ _ =>
  if character ≠ nul then fct character arg else arg

/-- A buffer, and the index of the next character. -/
structure Cursor (β : Type) where
  buffer : β
  idx : Nat

variable {β : Type}

/-- `out(character, buffer, idx++, maxlen)`. -/
def put (out : OutFct β) (maxlen : Nat) (c : Cursor β) (character : Char) : Cursor β :=
  ⟨out character c.buffer c.idx maxlen, (c.idx + 1) % wordSize⟩

def putAll (out : OutFct β) (maxlen : Nat) (c : Cursor β) (text : List Char) : Cursor β :=
  text.foldl (put out maxlen) c

variable (out : OutFct β) (maxlen : Nat)

@[simp] theorem putAll_nil (c : Cursor β) : putAll out maxlen c [] = c := rfl

@[simp] theorem putAll_cons (c : Cursor β) (x : Char) (text : List Char) :
    putAll out maxlen c (x :: text) = putAll out maxlen (put out maxlen c x) text := rfl

theorem putAll_append (c : Cursor β) (as bs : List Char) :
    putAll out maxlen c (as ++ bs) = putAll out maxlen (putAll out maxlen c as) bs :=
  List.foldl_append

/-- The index counts the characters. -/
theorem putAll_idx (c : Cursor β) (hc : c.idx < wordSize) (text : List Char) :
    (putAll out maxlen c text).idx = (c.idx + text.length) % wordSize := by
  induction text generalizing c with
  | nil => exact (Nat.mod_eq_of_lt hc).symm
  | cons x text ih =>
    rw [putAll_cons, ih _ (Nat.mod_lt _ (by decide))]
    simp only [put, List.length_cons, wordSize]
    omega

/-! ## Padding and turning around -/

/-- `out(' ', …)`, `n` times. -/
def pad (c : Cursor β) : Nat → Cursor β
  | 0 => c
  | n + 1 => pad (put out maxlen c ' ') n

/-- `while (idx - start_idx < width) out(' ', …)`, at most `fuel` times. -/
def padWhile (startIdx width : Nat) : Nat → Cursor β → Cursor β
  | 0, c => c
  | fuel + 1, c =>
    if (c.idx + wordSize - startIdx) % wordSize < width then
      padWhile startIdx width fuel (put out maxlen c ' ')
    else c

/-- The flags of a conversion. -/
structure Flags where
  zeropad : Bool
  left : Bool
  plus : Bool
  space : Bool
  hash : Bool
  uppercase : Bool
  char : Bool
  short : Bool
  long : Bool
  longLong : Bool
  precision : Bool
  adaptExp : Bool
  deriving DecidableEq, Repr

/-- `flags = 0U`. -/
def Flags.none : Flags :=
  ⟨false, false, false, false, false, false, false, false, false, false, false, false⟩

/-- `_out_rev`. -/
def outRev (c : Cursor β) (buf : List Char) (width : Nat) (flags : Flags) : Cursor β :=
  let startIdx := c.idx
  let c := if !flags.left && !flags.zeropad then pad out maxlen c (width - buf.length) else c
  let c := putAll out maxlen c buf.reverse
  if flags.left then padWhile out maxlen startIdx width width c else c

theorem pad_eq (c : Cursor β) (n : Nat) :
    pad out maxlen c n = putAll out maxlen c (List.replicate n ' ') := by
  induction n generalizing c with
  | zero => rfl
  | succ n ih => rw [pad, ih, List.replicate_succ, putAll_cons]

/-- The loop ends when the field is as wide as asked for. -/
theorem padWhile_eq {startIdx width : Nat} (hwidth : width < wordSize) (fuel k : Nat) (c : Cursor β)
    (hk : (c.idx + wordSize - startIdx) % wordSize = k) (hidx : c.idx < wordSize)
    (hstart : startIdx < wordSize) (hfuel : width - k ≤ fuel) :
    padWhile out maxlen startIdx width fuel c = putAll out maxlen c (List.replicate (width - k) ' ') := by
  induction fuel generalizing c k with
  | zero =>
    rw [show width - k = 0 by omega]
    rfl
  | succ fuel ih =>
    rw [padWhile, hk]
    by_cases hlt : k < width
    · have hnext : ((put out maxlen c ' ').idx + wordSize - startIdx) % wordSize = k + 1 := by
        simp only [put, wordSize] at *
        omega
      rw [if_pos hlt, ih (k + 1) _ hnext (Nat.mod_lt _ (by decide)) (by omega),
        show width - k = (width - (k + 1)) + 1 by omega, List.replicate_succ]
      rfl
    · rw [if_neg hlt, show width - k = 0 by omega]
      rfl

/-- The text of `_out_rev`. -/
def revText (buf : List Char) (width : Nat) (flags : Flags) : List Char :=
  (if !flags.left && !flags.zeropad then List.replicate (width - buf.length) ' ' else []) ++ buf.reverse ++
    (if flags.left then List.replicate (width - buf.length) ' ' else [])

/-- **`_out_rev` puts its text**, for a number that is shorter than the range of an index. -/
theorem outRev_eq (c : Cursor β) (hc : c.idx < wordSize) (buf : List Char) (hbuf : buf.length < wordSize)
    {width : Nat} (hwidth : width < wordSize) (flags : Flags) :
    outRev out maxlen c buf width flags = putAll out maxlen c (revText buf width flags) := by
  cases hleft : flags.left with
  | false =>
    cases hzero : flags.zeropad <;>
      simp [outRev, revText, hleft, hzero, pad_eq, putAll_append]
  | true =>
    have hlen : ((putAll out maxlen c buf.reverse).idx + wordSize - c.idx) % wordSize = buf.length := by
      rw [putAll_idx out maxlen c hc, List.length_reverse]
      simp only [wordSize] at *
      omega
    simp only [outRev, revText, hleft, Bool.not_true, Bool.false_and, Bool.false_eq_true, if_false, if_true,
      List.nil_append, putAll_append]
    apply padWhile_eq out maxlen hwidth _ _ _ hlen _ hc (by omega)
    rw [putAll_idx out maxlen c hc]
    exact Nat.mod_lt _ (by decide)

/-! ## What a text leaves -/

/-- The last call of `_vsnprintf`: the terminating character goes to the next index or, when that is beyond
the capacity, to the last one of the buffer. -/
def terminate (c : Cursor β) : β :=
  out nul c.buffer (if c.idx < maxlen then c.idx else (maxlen + wordSize - 1) % wordSize) maxlen

theorem outBuffer_apply (x : Char) (mem : Nat → Char) (idx i : Nat) :
    outBuffer x mem idx maxlen i = if i = idx ∧ idx < maxlen then x else mem i := by
  unfold outBuffer
  by_cases hi : i = idx
  · subst hi
    split <;> simp_all
  · split <;> simp [hi]

/-- A text in a buffer, from its start. -/
theorem putAll_outBuffer (mem : Nat → Char) (text : List Char) (hlen : text.length ≤ wordSize) (i : Nat) :
    (putAll outBuffer maxlen ⟨mem, 0⟩ text).buffer i =
      if i < maxlen then text[i]?.getD (mem i) else mem i := by
  induction text using List.reverseRecOn with
  | nil => simp
  | append_singleton text x ih =>
    rw [List.length_append, List.length_singleton] at hlen
    have hidx : (putAll outBuffer maxlen ⟨mem, 0⟩ text).idx = text.length := by
      rw [putAll_idx _ _ _ (by simp [wordSize])]
      simp only [wordSize] at hlen ⊢
      omega
    rw [putAll_append, putAll_cons, putAll_nil]
    simp only [put]
    rw [outBuffer_apply, hidx, ih (by omega)]
    rcases Nat.lt_trichotomy i text.length with hi | rfl | hi
    · rw [List.getElem?_append_left hi, if_neg (by omega)]
    · simp
    · have hbeyond : (text ++ [x]).length ≤ i := by
        rw [List.length_append, List.length_singleton]
        exact hi
      rw [List.getElem?_eq_none hbeyond, List.getElem?_eq_none (by omega), if_neg (by omega)]

/-- A text handed to the function of a wrapper, without the terminating characters in it. -/
theorem putAll_outFct {α : Type} (fct : Char → α → α) (arg : α) (k : Nat) (text : List Char) :
    (putAll (outFct fct) maxlen ⟨arg, k⟩ text).buffer =
      (text.filter (· ≠ nul)).foldl (fun a c => fct c a) arg := by
  induction text generalizing arg k with
  | nil => rfl
  | cons x text ih =>
    rw [putAll_cons, put, ih]
    by_cases hx : x = nul <;> simp [outFct, hx]

theorem outChar_eq : outChar = outFct fun character sent => sent ++ [character] := rfl

theorem putAll_outChar (sent : List Char) (k : Nat) (text : List Char) :
    (putAll outChar maxlen ⟨sent, k⟩ text).buffer = sent ++ text.filter (· ≠ nul) := by
  rw [outChar_eq, putAll_outFct]
  induction text.filter (· ≠ nul) generalizing sent with
  | nil => simp
  | cons x text ih => simp [ih]

end Printf

end CachePool
