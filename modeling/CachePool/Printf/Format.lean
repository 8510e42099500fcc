import CachePool.Printf.ReadBack

/-!
# The format string of `printf` (`_vsnprintf` in `vendor/printf.c`)

On a machine where `int`, `long`, `size_t` and pointers have 32 bits, `long long` and `intmax_t` have 64, and
`char` is unsigned.  The texts of floating-point numbers are a parameter.  An outcome `none` is undefined
behaviour: an argument that is missing or of another type, a floating-point number that has no text, or a
format that ends within a directive, behind whose terminating character the function reads on.

* `FloatTexts` — what `_ftoa` and `_etoa` put.
* `evalFlags`, `evalWidth`, `evalPrecision`, `evalLength`, `evalSpecifier` — the fields of a directive, with
  the arguments they take; `emit` — what a directive puts.
* `vsnprintfLoop`, `vsnprintf` — the function; `printf_`, `sprintf_`, `snprintf_`, `fctprintf` — those it
  serves.
* `convText`, `formatText` — the text of a directive and of a format; `vsnprintfLoop_eq` — all output
  functions get this text.
* `printf_one_text` — what arrives in a buffer, on the console and with a function of the caller.
-/

set_option autoImplicit false

namespace CachePool

namespace Printf

variable {β : Type}

/-- A string in memory: its characters before the terminating one. -/
structure CString where
  chars : List Char
  no_nul : nul ∉ chars

/-- An argument as `va_arg` can take it. -/
inductive Arg where
  /-- `int`, `unsigned int`, `long`, `unsigned long`, `void *` -/
  | word (v : BitVec 32)
  /-- `long long`, `unsigned long long` -/
  | dword (v : BitVec 64)
  /-- `double` -/
  | double (v : BitVec 64)
  /-- a pointer to a string -/
  | str (s : CString)

/-! ## The fields of a directive -/

/-- `*format`. -/
def peek (format : List Char) : Char := format.headD nul

/-- The loop over the flags. -/
def evalFlags : List Char → Flags → Flags × List Char
  | '0' :: format, flags => evalFlags format { flags with zeropad := true }
  | '-' :: format, flags => evalFlags format { flags with left := true }
  | '+' :: format, flags => evalFlags format { flags with plus := true }
  | ' ' :: format, flags => evalFlags format { flags with space := true }
  | '#' :: format, flags => evalFlags format { flags with hash := true }
  | format, flags => (flags, format)

/-- `_is_digit`. -/
def isDigit (ch : Char) : Bool := decide ('0'.toNat ≤ ch.toNat) && decide (ch.toNat ≤ '9'.toNat)

/-- `_atoi`, from the value so far. -/
def atoi : Nat → List Char → Nat × List Char
  | i, [] => (i, [])
  | i, ch :: format =>
    if isDigit ch then atoi ((i * 10 + (ch.toNat - '0'.toNat)) % wordSize) format else (i, ch :: format)

/-- Flags, width and precision, what is left of the format, and the arguments left. -/
structure Fields where
  flags : Flags
  width : Nat
  precision : Nat
  format : List Char
  args : List Arg

def evalWidth (f : Fields) : Option Fields :=
  if isDigit (peek f.format) then
    some { f with width := (atoi 0 f.format).1, format := (atoi 0 f.format).2 }
  else if peek f.format = '*' then
    match f.args with
    | .word w :: args =>
      if w.toInt < 0 then
        some { f with
          flags := { f.flags with left := true }, width := (-w).toNat, format := f.format.tail, args := args }
      else some { f with width := w.toNat, format := f.format.tail, args := args }
    | _ => none
  else some f

def evalPrecision (f : Fields) : Option Fields :=
  if peek f.format = '.' then
    let f := { f with flags := { f.flags with precision := true }, format := f.format.tail }
    if isDigit (peek f.format) then
      some { f with precision := (atoi 0 f.format).1, format := (atoi 0 f.format).2 }
    else if peek f.format = '*' then
      match f.args with
      | .word prec :: args =>
        some { f with
          precision := if prec.toInt > 0 then prec.toNat else 0, format := f.format.tail, args := args }
      | _ => none
    else some f
  else some f

def evalLength (flags : Flags) : List Char → Flags × List Char
  | 'l' :: 'l' :: format => ({ flags with long := true, longLong := true }, format)
  | 'l' :: format => ({ flags with long := true }, format)
  | 'h' :: 'h' :: format => ({ flags with short := true, char := true }, format)
  | 'h' :: format => ({ flags with short := true }, format)
  -- `ptrdiff_t` and `size_t` have the size of a `long`, `intmax_t` has not
  | 't' :: format => ({ flags with long := true }, format)
  | 'j' :: format => ({ flags with longLong := true }, format)
  | 'z' :: format => ({ flags with long := true }, format)
  | format => (flags, format)

/-- A directive with its arguments. -/
inductive Conv where
  | long (value : BitVec 32) (negative : Bool) (base precision width : Nat) (flags : Flags)
  | longLong (value : BitVec 64) (negative : Bool) (base precision width : Nat) (flags : Flags)
  | float (text : List Char)
  | chr (ch : Char) (width : Nat) (flags : Flags)
  | str (s : CString) (precision width : Nat) (flags : Flags)
  | literal (ch : Char)

/-- The base of an integer specifier. -/
def baseOf (ch : Char) : Nat :=
  if ch = 'x' ∨ ch = 'X' then 16 else if ch = 'o' then 8 else if ch = 'b' then 2 else 10

/-- The flags as the integer specifiers change them. -/
def integerFlags (ch : Char) (flags : Flags) : Flags :=
  let flags := if baseOf ch = 10 then { flags with hash := false } else flags
  let flags := if ch = 'X' then { flags with uppercase := true } else flags
  let flags := if ch ≠ 'i' ∧ ch ≠ 'd' then { flags with plus := false, space := false } else flags
  if flags.precision then { flags with zeropad := false } else flags

/-- `value > 0 ? value : 0 - value`. -/
def magnitude {w : Nat} (v : BitVec w) : BitVec w := if v.toInt > 0 then v else -v

/-- The `int` a signed conversion takes out of a word. -/
def signedArg (flags : Flags) (v : BitVec 32) : BitVec 32 :=
  if flags.long then v
  else if flags.char then (v.setWidth 8).setWidth 32
  else if flags.short then (v.setWidth 16).signExtend 32
  else v

def unsignedArg (flags : Flags) (v : BitVec 32) : BitVec 32 :=
  if flags.long then v
  else if flags.char then (v.setWidth 8).setWidth 32
  else if flags.short then (v.setWidth 16).setWidth 32
  else v

/-- The integer specifiers. -/
def evalInteger (ch : Char) (precision width : Nat) (flags : Flags) : List Arg → Option (Conv × List Arg)
  | .dword v :: args =>
    if flags.longLong then
      if ch = 'i' ∨ ch = 'd' then
        some (.longLong (magnitude v) (decide (v.toInt < 0)) (baseOf ch) precision width flags, args)
      else some (.longLong v false (baseOf ch) precision width flags, args)
    else none
  | .word v :: args =>
    if flags.longLong then none
    else if ch = 'i' ∨ ch = 'd' then
      some (.long (magnitude (signedArg flags v)) (decide ((signedArg flags v).toInt < 0)) (baseOf ch)
        precision width flags, args)
    else some (.long (unsignedArg flags v) false (baseOf ch) precision width flags, args)
  | _ => none

/-- `_ftoa` and `_etoa`, which compute in floating point: the text that they put for a value, a precision, a
width and flags.  It goes through `out` one character after the other, and does not depend on it; there is
none where they are undefined, as with a precision for which `pow10` has no entry. -/
structure FloatTexts where
  ftoa : BitVec 64 → Nat → Nat → Flags → Option (List Char)
  etoa : BitVec 64 → Nat → Nat → Flags → Option (List Char)

/-- The flags as the floating-point specifiers change them. -/
def floatFlags (ch : Char) (flags : Flags) : Flags :=
  let flags := if ch = 'g' ∨ ch = 'G' then { flags with adaptExp := true } else flags
  if ch = 'F' ∨ ch = 'E' ∨ ch = 'G' then { flags with uppercase := true } else flags

variable (F : FloatTexts)

/-- The floating-point specifiers. -/
def evalFloat (ch : Char) (precision width : Nat) (flags : Flags) : List Arg → Option (Conv × List Arg)
  | .double v :: args =>
    if ch = 'f' ∨ ch = 'F' then (F.ftoa v precision width flags).map fun text => (.float text, args)
    else (F.etoa v precision width flags).map fun text => (.float text, args)
  | _ => none

/-- The specifier; the format must not end before it. -/
def evalSpecifier (f : Fields) : Option (Conv × List Char × List Arg) :=
  match f.format with
  | [] => none
  | ch :: format =>
    if ch ∈ ['d', 'i', 'u', 'x', 'X', 'o', 'b'] then
      (evalInteger ch f.precision f.width (integerFlags ch f.flags) f.args).map fun r => (r.1, format, r.2)
    else if ch ∈ ['f', 'F', 'e', 'E', 'g', 'G'] then
      (evalFloat F ch f.precision f.width (floatFlags ch f.flags) f.args).map fun r => (r.1, format, r.2)
    else if ch = 'c' then
      match f.args with
      | .word v :: args => some (.chr (Char.ofNat (v.toNat % 256)) f.width f.flags, format, args)
      | _ => none
    else if ch = 's' then
      match f.args with
      | .str s :: args => some (.str s f.precision f.width f.flags, format, args)
      | _ => none
    else if ch = 'p' then
      match f.args with
      | .word v :: args =>
        some (.long v false 16 f.precision 8 { f.flags with zeropad := true, uppercase := true },
          format, args)
      | _ => none
    else some (.literal ch, format, f.args)

/-- A directive, behind its `%`. -/
def directive (format : List Char) (args : List Arg) : Option (Conv × List Char × List Arg) :=
  let (flags, format) := evalFlags format Flags.none
  (evalWidth ⟨flags, 0, 0, format, args⟩).bind fun f =>
  (evalPrecision f).bind fun f =>
  let (flags, format) := evalLength f.flags f.format
  evalSpecifier F { f with flags := flags, format := format }

/-! ## What a directive puts -/

/-- `_strnlen_s`. -/
def strnlen (s : CString) (maxsize : Nat) : Nat := min s.chars.length maxsize

/-- The length of a string as `%s` sees it. -/
def strLength (s : CString) (precision : Nat) (flags : Flags) : Nat :=
  let l := strnlen s (if precision ≠ 0 then precision else wordSize - 1)
  if flags.precision then min l precision else l

/-- The characters `%s` puts. -/
def strChars (s : CString) (precision : Nat) (flags : Flags) : List Char :=
  if flags.precision then s.chars.take precision else s.chars

variable (out : OutFct β) (maxlen : Nat)

def emit (c : Cursor β) : Conv → Cursor β
  | .long value negative base precision width flags =>
    ntoaLong out maxlen c value negative base precision width flags
  | .longLong value negative base precision width flags =>
    ntoaLongLong out maxlen c value negative base precision width flags
  | .float text => putAll out maxlen c text
  | .chr ch width flags =>
    let c := if !flags.left then pad out maxlen c (width - 1) else c
    let c := put out maxlen c ch
    if flags.left then pad out maxlen c (width - 1) else c
  | .str s precision width flags =>
    let l := strLength s precision flags
    let c := if !flags.left then pad out maxlen c (width - l) else c
    let c := putAll out maxlen c (strChars s precision flags)
    if flags.left then pad out maxlen c (width - l) else c
  | .literal ch => put out maxlen c ch

/-- The loop over the format, for at most as many turns as it has characters. -/
def vsnprintfLoop : Nat → List Char → List Arg → Cursor β → Option (Cursor β)
  | _, [], _, c => some c
  | 0, _ :: _, _, _ => none
  | n + 1, ch :: format, args, c =>
    if ch ≠ '%' then vsnprintfLoop n format args (put out maxlen c ch)
    else
      (directive F format args).bind fun r => vsnprintfLoop n r.2.1 r.2.2 (emit out maxlen c r.1)

/-- `_vsnprintf`, with a buffer: its result, and the buffer after. -/
def vsnprintf (buffer : β) (format : CString) (args : List Arg) : Option (Int × β) :=
  (vsnprintfLoop F out maxlen format.chars.length format.chars args ⟨buffer, 0⟩).map fun c =>
    ((c.idx : Int).bmod wordSize, terminate out maxlen c)

/-- `printf_`: its result, and what is sent to `_putchar`. -/
def printf_ (format : CString) (args : List Arg) : Option (Int × List Char) :=
  vsnprintf F outChar (wordSize - 1) [] format args

/-- `sprintf_`. -/
def sprintf_ (mem : Nat → Char) (format : CString) (args : List Arg) : Option (Int × (Nat → Char)) :=
  vsnprintf F outBuffer (wordSize - 1) mem format args

/-- `snprintf_`, with a buffer of `count` characters. -/
def snprintf_ (mem : Nat → Char) (count : Nat) (format : CString) (args : List Arg) :
    Option (Int × (Nat → Char)) :=
  vsnprintf F outBuffer count mem format args

/-- `snprintf_` without a buffer. -/
def snprintfNull (count : Nat) (format : CString) (args : List Arg) : Option Int :=
  (vsnprintf F outNull count () format args).map Prod.fst

/-- `fctprintf`. -/
def fctprintf {α : Type} (fct : Char → α → α) (arg : α) (format : CString) (args : List Arg) :
    Option (Int × α) :=
  vsnprintf F (outFct fct) (wordSize - 1) arg format args

/-! ## The text -/

/-- The text of a directive. -/
def convText : Conv → List Char
  | .long value negative base precision width flags =>
    ntoaText value.toNat negative base precision width flags
  | .longLong value negative base precision width flags =>
    ntoaText value.toNat negative base precision width flags
  | .float text => text
  | .chr ch width flags =>
    (if !flags.left then List.replicate (width - 1) ' ' else []) ++ [ch] ++
      (if flags.left then List.replicate (width - 1) ' ' else [])
  | .str s precision width flags =>
    (if !flags.left then List.replicate (width - strLength s precision flags) ' ' else []) ++
      strChars s precision flags ++
      (if flags.left then List.replicate (width - strLength s precision flags) ' ' else [])
  | .literal ch => [ch]

/-- The width of a directive fits its variable. -/
def Conv.Fits : Conv → Prop
  | .long _ _ _ _ width _ | .longLong _ _ _ _ width _ => width < wordSize
  | _ => True

theorem emit_eq {conv : Conv} (hconv : conv.Fits) (c : Cursor β) (hc : c.idx < wordSize) :
    emit out maxlen c conv = putAll out maxlen c (convText conv) := by
  cases conv with
  | long value negative base precision width flags =>
    exact ntoa_eq out maxlen c hc value.toNat negative base precision hconv flags
  | longLong value negative base precision width flags =>
    exact ntoa_eq out maxlen c hc value.toNat negative base precision hconv flags
  | float text => rfl
  | chr ch width flags =>
    cases hleft : flags.left <;> simp [emit, convText, hleft, pad_eq, putAll_append]
  | str s precision width flags =>
    cases hleft : flags.left <;> simp [emit, convText, hleft, pad_eq, putAll_append]
  | literal ch => rfl

theorem atoi_lt (i : Nat) (format : List Char) (hi : i < wordSize) : (atoi i format).1 < wordSize := by
  induction format generalizing i with
  | nil => exact hi
  | cons ch format ih =>
    rw [atoi]
    split
    · exact ih _ (Nat.mod_lt _ (by decide))
    · exact hi

theorem atoi_length_le (i : Nat) (format : List Char) : (atoi i format).2.length ≤ format.length := by
  induction format generalizing i with
  | nil => exact Nat.le_refl _
  | cons ch format ih =>
    rw [atoi]
    split
    · exact (ih _).trans (by simp)
    · exact Nat.le_refl _

theorem evalFlags_length_le (format : List Char) (flags : Flags) :
    (evalFlags format flags).2.length ≤ format.length := by
  fun_induction evalFlags format flags with
  | case1 _ _ ih | case2 _ _ ih | case3 _ _ ih | case4 _ _ ih | case5 _ _ ih => exact ih.trans (by simp)
  | case6 => exact Nat.le_refl _

theorem evalLength_length_le (flags : Flags) (format : List Char) :
    (evalLength flags format).2.length ≤ format.length := by
  unfold evalLength
  split <;> simp <;> omega

/-- The width fits its variable, and nothing is added to the format. -/
theorem evalWidth_spec {f f' : Fields} (h : evalWidth f = some f') (hf : f.width < wordSize) :
    f'.width < wordSize ∧ f'.format.length ≤ f.format.length := by
  unfold evalWidth at h
  split at h
  · cases h
    exact ⟨atoi_lt 0 _ (by decide), atoi_length_le 0 _⟩
  · split at h
    · split at h
      · split at h <;> cases h <;> exact ⟨BitVec.isLt _, by simp⟩
      · cases h
    · cases h
      exact ⟨hf, Nat.le_refl _⟩

theorem evalPrecision_spec {f f' : Fields} (h : evalPrecision f = some f') :
    f'.width = f.width ∧ f'.format.length ≤ f.format.length := by
  unfold evalPrecision at h
  split at h
  · dsimp only at h
    split at h
    · cases h
      exact ⟨rfl, (atoi_length_le 0 _).trans (by simp)⟩
    · split at h
      · split at h
        · cases h
          refine ⟨rfl, ?_⟩
          simp only [List.length_tail]
          omega
        · cases h
      · cases h
        exact ⟨rfl, by simp⟩
  · cases h
    exact ⟨rfl, Nat.le_refl _⟩

theorem evalInteger_fits {ch : Char} {precision width : Nat} {flags : Flags} {args args' : List Arg}
    {conv : Conv}
    (hwidth : width < wordSize) (h : evalInteger ch precision width flags args = some (conv, args')) :
    conv.Fits := by
  unfold evalInteger at h
  split at h
  · split at h
    · split at h <;> cases h <;> exact hwidth
    · cases h
  · split at h
    · cases h
    · split at h <;> cases h <;> exact hwidth
  · cases h

theorem evalFloat_fits {ch : Char} {precision width : Nat} {flags : Flags} {args args' : List Arg} {conv : Conv}
    (h : evalFloat F ch precision width flags args = some (conv, args')) : conv.Fits := by
  unfold evalFloat at h
  split at h
  · split at h
    · obtain ⟨text, _, heq⟩ := Option.map_eq_some_iff.mp h
      cases heq
      exact trivial
    · obtain ⟨text, _, heq⟩ := Option.map_eq_some_iff.mp h
      cases heq
      exact trivial
  · cases h

variable {F}

/-- A specifier takes a character of the format. -/
theorem evalSpecifier_spec {f : Fields} {conv : Conv} {format : List Char} {args : List Arg}
    (hwidth : f.width < wordSize) (h : evalSpecifier F f = some (conv, format, args)) :
    conv.Fits ∧ format.length + 1 = f.format.length := by
  unfold evalSpecifier at h
  split at h
  · cases h
  · rename_i ch rest hformat
    rw [hformat, List.length_cons]
    split at h
    · obtain ⟨⟨conv', args'⟩, heval, heq⟩ := Option.map_eq_some_iff.mp h
      cases heq
      exact ⟨evalInteger_fits hwidth heval, rfl⟩
    · split at h
      · obtain ⟨⟨conv', args'⟩, heval, heq⟩ := Option.map_eq_some_iff.mp h
        cases heq
        exact ⟨evalFloat_fits F heval, rfl⟩
      · split at h
        · split at h <;> cases h
          exact ⟨trivial, rfl⟩
        · split at h
          · split at h <;> cases h
            exact ⟨trivial, rfl⟩
          · split at h
            · split at h <;> cases h
              exact ⟨show (8 : Nat) < wordSize by decide, rfl⟩
            · cases h
              exact ⟨trivial, rfl⟩

/-- **A directive** has a width that fits and takes a character of the format at least. -/
theorem directive_spec {format format' : List Char} {args args' : List Arg} {conv : Conv}
    (h : directive F format args = some (conv, format', args')) :
    conv.Fits ∧ format'.length < format.length := by
  unfold directive at h
  dsimp only at h
  obtain ⟨f₁, h₁, h⟩ := Option.bind_eq_some_iff.mp h
  obtain ⟨f₂, h₂, h⟩ := Option.bind_eq_some_iff.mp h
  obtain ⟨hwidth, hlen₁⟩ := evalWidth_spec h₁ (show (0 : Nat) < wordSize by decide)
  obtain ⟨hsame, hlen₂⟩ := evalPrecision_spec h₂
  obtain ⟨hfits, hlen₃⟩ := evalSpecifier_spec (by rw [← hsame] at hwidth; exact hwidth) h
  have hlen₀ := evalFlags_length_le format Flags.none
  have hlen := evalLength_length_le f₂.flags f₂.format
  dsimp only at hlen₁ hlen₃
  exact ⟨hfits, by omega⟩

variable (F)

/-- The text of a format, read for at most `n` turns. -/
def textLoop : Nat → List Char → List Arg → Option (List Char)
  | _, [], _ => some []
  | 0, _ :: _, _ => none
  | n + 1, ch :: format, args =>
    if ch ≠ '%' then (textLoop n format args).map (ch :: ·)
    else (directive F format args).bind fun r => (textLoop n r.2.1 r.2.2).map (convText r.1 ++ ·)

/-- The text of a format with its arguments. -/
def formatText (format : List Char) (args : List Arg) : Option (List Char) :=
  textLoop F format.length format args

/-- **The text is the same for all output functions.** -/
theorem vsnprintfLoop_eq (n : Nat) (format : List Char) (args : List Arg) (c : Cursor β)
    (hc : c.idx < wordSize) :
    vsnprintfLoop F out maxlen n format args c = (textLoop F n format args).map (putAll out maxlen c) := by
  induction n generalizing format args c with
  | zero => cases format <;> rfl
  | succ n ih =>
    cases format with
    | nil => rfl
    | cons ch format =>
      rw [vsnprintfLoop, textLoop]
      split
      · rw [ih _ _ _ (Nat.mod_lt _ (by decide)), Option.map_map]
        rfl
      · rcases hd : directive F format args with _ | ⟨conv, format', args'⟩
        · rfl
        · obtain ⟨hfits, _⟩ := directive_spec hd
          have hidx : (putAll out maxlen c (convText conv)).idx < wordSize := by
            rw [putAll_idx out maxlen c hc]
            exact Nat.mod_lt _ (by decide)
          simp only [Option.bind_some]
          rw [emit_eq out maxlen hfits c hc, ih _ _ _ hidx, Option.map_map]
          congr 1
          funext text
          exact (putAll_append out maxlen c _ text).symm

/-- More turns than the format has characters change nothing. -/
theorem textLoop_fuel {n : Nat} {format : List Char} (h : format.length ≤ n) (args : List Arg) :
    textLoop F n format args = formatText F format args := by
  have hstep : ∀ n m format args, format.length ≤ n → format.length ≤ m →
      textLoop F n format args = textLoop F m format args := by
    intro n
    induction n with
    | zero =>
      intro m format args hn _
      rw [List.length_eq_zero_iff.mp (Nat.le_zero.mp hn)]
      cases m <;> rfl
    | succ n ih =>
      intro m format args hn hm
      cases format with
      | nil => cases m <;> rfl
      | cons ch format =>
        cases m with
        | zero => simp at hm
        | succ m =>
          rw [List.length_cons] at hn hm
          rw [textLoop, textLoop]
          split
          · rw [ih m format args (by omega) (by omega)]
          · rcases hd : directive F format args with _ | ⟨conv, format', args'⟩
            · rfl
            · obtain ⟨_, hlen⟩ := directive_spec hd
              simp only [Option.bind_some]
              rw [ih m format' args' (by omega) (by omega)]
  exact hstep n _ format args h (Nat.le_refl _)

theorem vsnprintf_eq (buffer : β) (format : CString) (args : List Arg) :
    vsnprintf F out maxlen buffer format args = (formatText F format.chars args).map fun text =>
      (((text.length % wordSize : Nat) : Int).bmod wordSize,
        terminate out maxlen (putAll out maxlen ⟨buffer, 0⟩ text)) := by
  have hzero : (⟨buffer, 0⟩ : Cursor β).idx < wordSize := Nat.two_pow_pos 32
  have hloop := vsnprintfLoop_eq F out maxlen format.chars.length format.chars args ⟨buffer, 0⟩ hzero
  unfold vsnprintf
  rw [hloop, formatText, Option.map_map]
  apply congrArg (Option.map · _)
  funext text
  have hidx := putAll_idx out maxlen ⟨buffer, 0⟩ hzero text
  rw [Nat.zero_add] at hidx
  rw [Function.comp_apply, hidx]

/-! ## In a buffer and on the console -/

/-- What `snprintf_` leaves: as much of the text as there is room for before a terminating character. -/
def inBuffer (mem : Nat → Char) (count : Nat) (text : List Char) (i : Nat) : Char :=
  if i < min text.length (count - 1) then text[i]?.getD nul
  else if i = min text.length (count - 1) ∧ 0 < count then nul
  else mem i

/-- A buffer with room for the text and a terminating character. -/
theorem inBuffer_of_fits (mem : Nat → Char) {count : Nat} {text : List Char} (h : text.length < count) :
    inBuffer mem count text = fun i =>
      if i < text.length then text[i]?.getD nul else if i = text.length then nul else mem i := by
  funext i
  have hplace : min text.length (count - 1) = text.length := Nat.min_eq_left (by omega)
  have hpos : 0 < count := by omega
  simp only [inBuffer, hplace, hpos, and_true]

theorem terminate_outBuffer (mem : Nat → Char) {count : Nat} (hcount : count < wordSize) {text : List Char}
    (hlen : text.length < wordSize) (i : Nat) :
    terminate outBuffer count (putAll outBuffer count ⟨mem, 0⟩ text) i = inBuffer mem count text i := by
  have hidx : (putAll outBuffer count ⟨mem, 0⟩ text).idx = text.length := by
    rw [putAll_idx _ _ _ (Nat.two_pow_pos 32), Nat.zero_add, Nat.mod_eq_of_lt hlen]
  have hplace : (if text.length < count then text.length else (count + wordSize - 1) % wordSize) =
      if count = 0 then wordSize - 1 else min text.length (count - 1) := by
    simp only [wordSize] at *
    split <;> split <;> omega
  unfold terminate inBuffer
  rw [outBuffer_apply, hidx, putAll_outBuffer _ _ _ hlen.le, hplace]
  rcases Nat.eq_zero_or_pos count with rfl | hpos
  · simp
  · have hfirst : (if count = 0 then wordSize - 1 else min text.length (count - 1)) =
        min text.length (count - 1) :=
      if_neg hpos.ne'
    rw [hfirst]
    rcases Nat.lt_trichotomy i (min text.length (count - 1)) with hi | hi | hi
    · rw [if_neg (by omega), if_pos (by omega), if_pos hi, List.getElem?_eq_getElem (by omega)]
      rfl
    · rw [if_pos ⟨hi, by omega⟩, if_neg (by omega), if_pos ⟨hi, hpos⟩]
    · have hbehind : i < count → text[i]? = none := fun hin => List.getElem?_eq_none (by omega)
      have hne : i ≠ min text.length (count - 1) := by omega
      have hnot : ¬ i < min text.length (count - 1) := by omega
      by_cases hin : i < count
      · simp [hne, hnot, hin, hbehind hin]
      · simp [hne, hnot, hin]

theorem terminate_outFct {α : Type} (fct : Char → α → α) (arg : α) (text : List Char) :
    terminate (outFct fct) maxlen (putAll (outFct fct) maxlen ⟨arg, 0⟩ text) =
      (text.filter (· ≠ nul)).foldl (fun a c => fct c a) arg := by
  have hsent := putAll_outFct maxlen fct arg 0 text
  simp [terminate, outFct, hsent]

theorem terminate_outChar (text : List Char) :
    terminate outChar maxlen (putAll outChar maxlen ⟨[], 0⟩ text) = text.filter (· ≠ nul) := by
  have hsent := putAll_outChar maxlen [] 0 text
  simp [terminate, outChar, hsent]

/-- **One text.**  For every format and arguments there is one text or none.  Where there is none, no function
of the family is defined.  Where there is one that an `int` can count, all of them return its length;
`printf_` sends its characters and `fctprintf` hands them on, but for terminating ones; `snprintf_` leaves as
much of it in the buffer as fits before a terminating character, and nothing beyond its capacity; and
`sprintf_` leaves all of it. -/
theorem printf_one_text (format : CString) (args : List Arg) :
    (formatText F format.chars args = none →
      printf_ F format args = none ∧ (∀ mem, sprintf_ F mem format args = none) ∧
      (∀ mem count, snprintf_ F mem count format args = none) ∧
      (∀ count, snprintfNull F count format args = none) ∧
      ∀ (α : Type) (fct : Char → α → α) (arg : α), fctprintf F fct arg format args = none) ∧
    ∀ text, formatText F format.chars args = some text → text.length < 2 ^ 31 →
      printf_ F format args = some ((text.length : Int), text.filter (· ≠ nul)) ∧
      (∀ mem, sprintf_ F mem format args = some ((text.length : Int), fun i =>
        if i < text.length then text[i]?.getD nul else if i = text.length then nul else mem i)) ∧
      (∀ mem count, count < wordSize →
        snprintf_ F mem count format args = some ((text.length : Int), inBuffer mem count text)) ∧
      (∀ count, snprintfNull F count format args = some (text.length : Int)) ∧
      ∀ (α : Type) (fct : Char → α → α) (arg : α), fctprintf F fct arg format args =
        some ((text.length : Int), (text.filter (· ≠ nul)).foldl (fun a c => fct c a) arg) := by
  constructor
  · intro hnone
    refine ⟨?_, fun mem => ?_, fun mem count => ?_, fun count => ?_, fun α fct arg => ?_⟩
    · rw [printf_, vsnprintf_eq, hnone, Option.map_none]
    · rw [sprintf_, vsnprintf_eq, hnone, Option.map_none]
    · rw [snprintf_, vsnprintf_eq, hnone, Option.map_none]
    · rw [snprintfNull, vsnprintf_eq, hnone, Option.map_none, Option.map_none]
    · rw [fctprintf, vsnprintf_eq, hnone, Option.map_none]
  · intro text htext hlen
    have hword : text.length < wordSize := hlen.trans (by decide)
    have hret : (((text.length % wordSize : Nat) : Int).bmod wordSize) = text.length := by
      rw [Nat.mod_eq_of_lt hword, Int.bmod_eq_of_le] <;> simp only [wordSize] <;> omega
    have hbuffer : ∀ mem count, count < wordSize →
        vsnprintf F outBuffer count mem format args = some ((text.length : Int), inBuffer mem count text) := by
      intro mem count hcount
      have hleft : terminate outBuffer count (putAll outBuffer count ⟨mem, 0⟩ text) =
          inBuffer mem count text :=
        funext (terminate_outBuffer mem hcount hword)
      rw [vsnprintf_eq, htext, Option.map_some, hret, hleft]
    refine ⟨?_, fun mem => ?_, hbuffer, fun count => ?_, fun α fct arg => ?_⟩
    · rw [printf_, vsnprintf_eq, htext, Option.map_some, hret, terminate_outChar]
    · have hfits : text.length < wordSize - 1 := hlen.trans (by decide)
      rw [sprintf_, hbuffer mem (wordSize - 1) (by decide), inBuffer_of_fits mem hfits]
    · rw [snprintfNull, vsnprintf_eq, htext, Option.map_some, hret, Option.map_some]
    · rw [fctprintf, vsnprintf_eq, htext, Option.map_some, hret, terminate_outFct]

end Printf

end CachePool
