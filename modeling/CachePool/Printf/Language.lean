import CachePool.Printf.Format

/-!
# The directives of `printf`

A format as its author means it: literal characters and directives, each with flags, a width, a precision, a
length and a specifier.

* `Directive`, `Piece`, `spell` — directives and pieces, and how they are written.
* `Directive.meaning` — what a directive makes of the arguments; `piecesText` — the text of a list of pieces.
* `directive_spell` — a directive is read as it was meant, whatever follows it.
* `formatText_spell` — the text of a written format is that of its pieces, each with the arguments that are
  left for it.
-/

set_option autoImplicit false

namespace CachePool

namespace Printf

/-! ## Directives -/

inductive FlagChar where
  | zero
  | minus
  | plus
  | space
  | hash
  deriving DecidableEq, Repr

/-- The width: left out, a number that is not 0, or an argument. -/
inductive WidthField where
  | omitted
  | lit (n : Nat) (pos : 0 < n) (lt : n < wordSize)
  | star

/-- The precision: left out, a dot alone, with a number, or with an argument. -/
inductive PrecisionField where
  | omitted
  | dot
  | lit (n : Nat) (lt : n < wordSize)
  | star

inductive LengthField where
  | omitted
  | l
  | ll
  | h
  | hh
  | t
  | j
  | z
  deriving DecidableEq, Repr

inductive Specifier where
  | d
  | i
  | u
  | x
  | X
  | o
  | b
  | f
  | F
  | e
  | E
  | g
  | G
  | c
  | s
  | p
  | percent
  deriving DecidableEq, Repr

structure Directive where
  flags : List FlagChar
  width : WidthField
  precision : PrecisionField
  length : LengthField
  specifier : Specifier

inductive Piece where
  | lit (ch : Char) (ne : ch ≠ '%')
  | directive (d : Directive)

/-! ## How they are written -/

def FlagChar.spell : FlagChar → Char
  | .zero => '0'
  | .minus => '-'
  | .plus => '+'
  | .space => ' '
  | .hash => '#'

/-- A number in decimal. -/
def spellNat (n : Nat) : List Char :=
  if n = 0 then ['0'] else ((Nat.digits 10 n).map (digitChar false)).reverse

def WidthField.spell : WidthField → List Char
  | .omitted => []
  | .lit n _ _ => spellNat n
  | .star => ['*']

def PrecisionField.spell : PrecisionField → List Char
  | .omitted => []
  | .dot => ['.']
  | .lit n _ => '.' :: spellNat n
  | .star => ['.', '*']

def LengthField.spell : LengthField → List Char
  | .omitted => []
  | .l => ['l']
  | .ll => ['l', 'l']
  | .h => ['h']
  | .hh => ['h', 'h']
  | .t => ['t']
  | .j => ['j']
  | .z => ['z']

def Specifier.spell : Specifier → Char
  | .d => 'd'
  | .i => 'i'
  | .u => 'u'
  | .x => 'x'
  | .X => 'X'
  | .o => 'o'
  | .b => 'b'
  | .f => 'f'
  | .F => 'F'
  | .e => 'e'
  | .E => 'E'
  | .g => 'g'
  | .G => 'G'
  | .c => 'c'
  | .s => 's'
  | .p => 'p'
  | .percent => '%'

/-- A directive behind its `%`. -/
def Directive.spell (d : Directive) : List Char :=
  d.flags.map FlagChar.spell ++
    (d.width.spell ++ (d.precision.spell ++ (d.length.spell ++ [d.specifier.spell])))

def Piece.spell : Piece → List Char
  | .lit ch _ => [ch]
  | .directive d => '%' :: d.spell

/-! ## What they mean -/

def FlagChar.set : FlagChar → Flags → Flags
  | .zero, flags => { flags with zeropad := true }
  | .minus, flags => { flags with left := true }
  | .plus, flags => { flags with plus := true }
  | .space, flags => { flags with space := true }
  | .hash, flags => { flags with hash := true }

/-- A negative width out of an argument means padding on the right. -/
def WidthField.meaning (flags : Flags) : WidthField → List Arg → Option (Flags × Nat × List Arg)
  | .omitted, args => some (flags, 0, args)
  | .lit n _ _, args => some (flags, n, args)
  | .star, .word w :: args =>
    if w.toInt < 0 then some ({ flags with left := true }, (-w).toNat, args) else some (flags, w.toNat, args)
  | .star, _ => none

/-- A negative precision out of an argument is 0. -/
def PrecisionField.meaning (flags : Flags) : PrecisionField → List Arg → Option (Flags × Nat × List Arg)
  | .omitted, args => some (flags, 0, args)
  | .dot, args => some ({ flags with precision := true }, 0, args)
  | .lit n _, args => some ({ flags with precision := true }, n, args)
  | .star, .word w :: args =>
    some ({ flags with precision := true }, if w.toInt > 0 then w.toNat else 0, args)
  | .star, _ => none

def LengthField.meaning (flags : Flags) : LengthField → Flags
  | .omitted => flags
  | .l => { flags with long := true }
  | .ll => { flags with long := true, longLong := true }
  | .h => { flags with short := true }
  | .hh => { flags with short := true, char := true }
  | .t => { flags with long := true }
  | .j => { flags with longLong := true }
  | .z => { flags with long := true }

variable (F : FloatTexts)

def Specifier.meaning (flags : Flags) (width precision : Nat) (args : List Arg) :
    Specifier → Option (Conv × List Arg)
  | .c =>
    match args with
    | .word v :: args => some (.chr (Char.ofNat (v.toNat % 256)) width flags, args)
    | _ => none
  | .s =>
    match args with
    | .str t :: args => some (.str t precision width flags, args)
    | _ => none
  | .p =>
    match args with
    | .word v :: args =>
      some (.long v false 16 precision 8 { flags with zeropad := true, uppercase := true }, args)
    | _ => none
  | .percent => some (.literal '%', args)
  | .f => evalFloat F 'f' precision width (floatFlags 'f' flags) args
  | .F => evalFloat F 'F' precision width (floatFlags 'F' flags) args
  | .e => evalFloat F 'e' precision width (floatFlags 'e' flags) args
  | .E => evalFloat F 'E' precision width (floatFlags 'E' flags) args
  | .g => evalFloat F 'g' precision width (floatFlags 'g' flags) args
  | .G => evalFloat F 'G' precision width (floatFlags 'G' flags) args
  | integer => evalInteger integer.spell precision width (integerFlags integer.spell flags) args

def Directive.meaning (d : Directive) (args : List Arg) : Option (Conv × List Arg) :=
  (d.width.meaning (d.flags.foldl (fun flags f => f.set flags) Flags.none) args).bind fun w =>
  (d.precision.meaning w.1 w.2.2).bind fun p =>
  d.specifier.meaning F (d.length.meaning p.1) w.2.1 p.2.1 p.2.2

def piecesText : List Piece → List Arg → Option (List Char)
  | [], _ => some []
  | .lit ch _ :: pieces, args => (piecesText pieces args).map (ch :: ·)
  | .directive d :: pieces, args =>
    (d.meaning F args).bind fun r => (piecesText pieces r.2).map (convText r.1 ++ ·)

/-! ## Reading a directive -/

theorem evalFlags_spell (fs : List FlagChar) (flags : Flags) {rest : List Char}
    (hrest : peek rest ∉ ['0', '-', '+', ' ', '#']) :
    evalFlags (fs.map FlagChar.spell ++ rest) flags =
      (fs.foldl (fun flags f => f.set flags) flags, rest) := by
  induction fs generalizing flags with
  | nil =>
    rw [List.map_nil, List.nil_append, List.foldl_nil]
    cases rest with
    | nil => rfl
    | cons ch rest =>
      simp only [peek, List.headD_cons, List.mem_cons, List.not_mem_nil, or_false, not_or] at hrest
      unfold evalFlags
      split <;> simp_all
  | cons f fs ih =>
    rw [List.foldl_cons, ← ih]
    cases f <;> rfl

theorem isDigit_digitChar {d : Nat} (hd : d < 10) :
    isDigit (digitChar false d) = true ∧ (digitChar false d).toNat - '0'.toNat = d := by
  interval_cases d <;> decide

/-- Digits are read to a value modulo the word. -/
theorem atoi_digits (ds : List Nat) (hds : ∀ d ∈ ds, d < 10) (i : Nat) {rest : List Char}
    (hrest : isDigit (peek rest) = false) :
    atoi i (ds.map (digitChar false) ++ rest) = (ds.foldl (fun i d => (i * 10 + d) % wordSize) i, rest) := by
  induction ds generalizing i with
  | nil =>
    cases rest with
    | nil => rfl
    | cons ch rest =>
      simp only [peek, List.headD_cons] at hrest
      simp [atoi, hrest]
  | cons d ds ih =>
    obtain ⟨hdigit, hval⟩ := isDigit_digitChar (hds d (by simp))
    rw [List.map_cons, List.cons_append, atoi, if_pos hdigit, hval, List.foldl_cons]
    exact ih (fun c hc => hds c (List.mem_cons_of_mem _ hc)) _

/-- The word is taken at each digit or at the end. -/
theorem foldl_mod (ds : List Nat) (i : Nat) :
    ds.foldl (fun i d => (i * 10 + d) % wordSize) (i % wordSize) =
      ds.foldl (fun i d => i * 10 + d) i % wordSize := by
  induction ds generalizing i with
  | nil => rfl
  | cons d ds ih =>
    have hstep : (i % wordSize * 10 + d) % wordSize = (i * 10 + d) % wordSize := by
      simp [Nat.add_mod, Nat.mul_mod]
    rw [List.foldl_cons, List.foldl_cons, hstep, ih]

theorem spellNat_eq (n : Nat) : ∃ ds : List Nat, spellNat n = ds.map (digitChar false) ∧ (∀ d ∈ ds, d < 10) ∧
    ds.foldl (fun i d => i * 10 + d) 0 = n ∧ ds ≠ [] ∧ (0 < n → ds.head? ≠ some 0) := by
  rcases Nat.eq_zero_or_pos n with rfl | hpos
  · exact ⟨[0], rfl, by simp, rfl, by simp, fun h => absurd h (Nat.lt_irrefl 0)⟩
  · have hne : Nat.digits 10 n ≠ [] := Nat.digits_ne_nil_iff_ne_zero.mpr hpos.ne'
    refine ⟨(Nat.digits 10 n).reverse, ?_, fun d hd => ?_, ?_, by simpa using hne, fun _ => ?_⟩
    · rw [spellNat, if_neg hpos.ne', List.map_reverse]
    · exact Nat.digits_lt_base (by decide) (List.mem_reverse.mp hd)
    · have hof := Nat.ofDigits_digits 10 n
      rw [Nat.ofDigits_eq_foldr] at hof
      rw [List.foldl_reverse]
      calc (Nat.digits 10 n).foldr (fun d i => i * 10 + d) 0
          = (Nat.digits 10 n).foldr (fun x y => (x : Nat) + 10 * y) 0 := by
            congr 1
            funext d i
            omega
        _ = n := hof
    · rw [List.head?_reverse, List.getLast?_eq_getLast_of_ne_nil hne]
      intro h
      exact Nat.getLast_digit_ne_zero 10 hpos.ne' (Option.some.inj h)

/-- What stands behind a precision begins with no flag, no digit, no dot and no asterisk. -/
theorem peek_length (len : LengthField) (sp : Specifier) (rest : List Char) :
    peek (len.spell ++ sp.spell :: rest) ∉ ['0', '-', '+', ' ', '#', '*', '.'] ∧
      isDigit (peek (len.spell ++ sp.spell :: rest)) = false := by
  have hhead : peek (len.spell ++ sp.spell :: rest) ∈
      ['l', 'h', 't', 'j', 'z', 'd', 'i', 'u', 'x', 'X', 'o', 'b', 'f', 'F', 'e', 'E', 'g', 'G', 'c', 's', 'p',
        '%'] := by
    cases len <;> cases sp <;> simp [LengthField.spell, Specifier.spell, peek]
  have hall : ∀ ch ∈ ['l', 'h', 't', 'j', 'z', 'd', 'i', 'u', 'x', 'X', 'o', 'b', 'f', 'F', 'e', 'E', 'g', 'G',
        'c', 's', 'p', '%'],
      ch ∉ ['0', '-', '+', ' ', '#', '*', '.'] ∧ isDigit ch = false := by simp [isDigit]
  exact hall _ hhead

/-- What stands behind a width begins with no flag, no digit and no asterisk. -/
theorem peek_precision (p : PrecisionField) (len : LengthField) (sp : Specifier) (rest : List Char) :
    peek (p.spell ++ (len.spell ++ sp.spell :: rest)) ∉ ['0', '-', '+', ' ', '#', '*'] ∧
      isDigit (peek (p.spell ++ (len.spell ++ sp.spell :: rest))) = false := by
  cases p with
  | omitted =>
    obtain ⟨hflag, hdigit⟩ := peek_length len sp rest
    exact ⟨fun h => hflag (List.mem_append_left ['.'] h), hdigit⟩
  | dot | lit _ _ | star => exact ⟨by simp [PrecisionField.spell, peek], rfl⟩

/-- A number begins with a digit, and not with a 0 unless it is 0. -/
theorem peek_spellNat (n : Nat) (text : List Char) :
    isDigit (peek (spellNat n ++ text)) = true ∧ (0 < n → peek (spellNat n ++ text) ≠ '0') := by
  obtain ⟨ds, hspell, hlt, _, hne, hfirst⟩ := spellNat_eq n
  cases ds with
  | nil => exact absurd rfl hne
  | cons d ds =>
    have hd : d < 10 := hlt d (by simp)
    rw [hspell, List.map_cons, List.cons_append, peek, List.headD_cons]
    refine ⟨(isDigit_digitChar hd).1, fun hpos => ?_⟩
    have hd0 : d ≠ 0 := fun h => hfirst hpos (by rw [h, List.head?_cons])
    interval_cases d <;> first | exact absurd rfl hd0 | decide

/-- What stands behind the flags begins with no flag. -/
theorem peek_width (w : WidthField) (p : PrecisionField) (len : LengthField) (sp : Specifier)
    (rest : List Char) :
    peek (w.spell ++ (p.spell ++ (len.spell ++ sp.spell :: rest))) ∉ ['0', '-', '+', ' ', '#'] := by
  have hdigits : ∀ ch : Char, isDigit ch = true → ch ≠ '0' → ch ∉ ['0', '-', '+', ' ', '#'] := by
    intro ch hdigit hzero h
    simp only [List.mem_cons, List.not_mem_nil, or_false] at h
    rcases h with rfl | rfl | rfl | rfl | rfl
    · exact hzero rfl
    all_goals simp [isDigit] at hdigit
  cases w with
  | omitted =>
    exact fun h => (peek_precision p len sp rest).1 (List.mem_append_left ['*'] h)
  | lit n pos _ =>
    obtain ⟨hdigit, hzero⟩ := peek_spellNat n (p.spell ++ (len.spell ++ sp.spell :: rest))
    exact hdigits _ hdigit (hzero pos)
  | star => simp [WidthField.spell, peek]

/-- A number that fits the word is read as itself. -/
theorem atoi_spellNat {n : Nat} (hn : n < wordSize) {rest : List Char} (hrest : isDigit (peek rest) = false) :
    atoi 0 (spellNat n ++ rest) = (n, rest) := by
  obtain ⟨ds, hspell, hlt, hval, _, _⟩ := spellNat_eq n
  have hmod := foldl_mod ds 0
  rw [Nat.zero_mod, hval, Nat.mod_eq_of_lt hn] at hmod
  rw [hspell, atoi_digits ds hlt 0 hrest, hmod]

theorem evalWidth_spell (w : WidthField) (flags : Flags) (args : List Arg) {rest : List Char}
    (hdigit : isDigit (peek rest) = false) (hstar : peek rest ≠ '*') :
    evalWidth ⟨flags, 0, 0, w.spell ++ rest, args⟩ =
      (w.meaning flags args).map fun r => ⟨r.1, r.2.1, 0, rest, r.2.2⟩ := by
  cases w with
  | omitted => simp [evalWidth, WidthField.spell, WidthField.meaning, hdigit, hstar]
  | lit n pos lt =>
    have hread := atoi_spellNat lt hdigit
    simp [evalWidth, WidthField.spell, WidthField.meaning, (peek_spellNat n rest).1, hread]
  | star =>
    have hno : isDigit '*' = false := by decide
    rcases args with _ | ⟨_ | _ | _ | _, args⟩ <;>
      simp [evalWidth, WidthField.spell, WidthField.meaning, peek, hno]
    split <;> rfl

theorem evalPrecision_spell (p : PrecisionField) (flags : Flags) (width : Nat) (args : List Arg)
    {rest : List Char} (hdigit : isDigit (peek rest) = false) (hdot : peek rest ≠ '.')
    (hstar : peek rest ≠ '*') :
    evalPrecision ⟨flags, width, 0, p.spell ++ rest, args⟩ =
      (p.meaning flags args).map fun r => ⟨r.1, width, r.2.1, rest, r.2.2⟩ := by
  cases p with
  | omitted => simp [evalPrecision, PrecisionField.spell, PrecisionField.meaning, hdot]
  | dot =>
    have hpeek : peek ('.' :: rest) = '.' := rfl
    simp [evalPrecision, PrecisionField.spell, PrecisionField.meaning, hpeek, hdigit, hstar]
  | lit n lt =>
    have hread := atoi_spellNat lt hdigit
    have hpeek : peek ('.' :: (spellNat n ++ rest)) = '.' := rfl
    simp [evalPrecision, PrecisionField.spell, PrecisionField.meaning, hpeek, (peek_spellNat n rest).1, hread]
  | star =>
    have hno : isDigit '*' = false := by decide
    rcases args with _ | ⟨_ | _ | _ | _, args⟩ <;>
      simp [evalPrecision, PrecisionField.spell, PrecisionField.meaning, peek, hno]

theorem evalLength_spell (len : LengthField) (sp : Specifier) (flags : Flags) (rest : List Char) :
    evalLength flags (len.spell ++ sp.spell :: rest) = (len.meaning flags, sp.spell :: rest) := by
  cases len <;> cases sp <;> rfl

theorem evalSpecifier_spell (sp : Specifier) (flags : Flags) (width precision : Nat) (args : List Arg)
    (rest : List Char) :
    evalSpecifier F ⟨flags, width, precision, sp.spell :: rest, args⟩ =
      (sp.meaning F flags width precision args).map fun r => (r.1, rest, r.2) := by
  cases sp with
  | c | s | p => rcases args with _ | ⟨_ | _ | _ | _, args⟩ <;> rfl
  | percent => rfl
  | d | i | u | x | X | o | b => rfl
  | f | F | e | E | g | G => rfl

/-- **A directive is read as it was meant**, whatever stands behind it. -/
theorem directive_spell (d : Directive) (rest : List Char) (args : List Arg) :
    directive F (d.spell ++ rest) args = (d.meaning F args).map fun r => (r.1, rest, r.2) := by
  obtain ⟨fs, w, p, len, sp⟩ := d
  have hspell : Directive.spell ⟨fs, w, p, len, sp⟩ ++ rest =
      fs.map FlagChar.spell ++ (w.spell ++ (p.spell ++ (len.spell ++ sp.spell :: rest))) := by
    simp [Directive.spell]
  obtain ⟨hpre, hpreDigit⟩ := peek_precision p len sp rest
  obtain ⟨hlen, hlenDigit⟩ := peek_length len sp rest
  rw [hspell, directive, evalFlags_spell fs Flags.none (peek_width w p len sp rest)]
  dsimp only
  rw [evalWidth_spell w _ args hpreDigit (fun h => hpre (by rw [h]; decide)), Directive.meaning]
  dsimp only
  rw [Option.bind_map, Option.map_bind]
  congr 1
  funext wr
  rw [Function.comp_apply, evalPrecision_spell p _ _ _ hlenDigit (fun h => hlen (by rw [h]; decide))
    (fun h => hlen (by rw [h]; decide)), Option.bind_map, Function.comp_apply, Option.map_bind]
  congr 1
  funext pr
  simp only [Function.comp_apply, evalLength_spell, evalSpecifier_spell]

/-! ## The text of a format -/

theorem formatText_literal {ch : Char} (hch : ch ≠ '%') (format : List Char) (args : List Arg) :
    formatText F (ch :: format) args = (formatText F format args).map (ch :: ·) := by
  rw [formatText, List.length_cons, textLoop, if_pos hch]
  rfl

theorem formatText_directive (format : List Char) (args : List Arg) :
    formatText F ('%' :: format) args =
      (directive F format args).bind fun r => (formatText F r.2.1 r.2.2).map (convText r.1 ++ ·) := by
  rw [formatText, List.length_cons, textLoop, if_neg (by simp)]
  rcases hd : directive F format args with _ | ⟨conv, format', args'⟩
  · rfl
  · obtain ⟨_, hlen⟩ := directive_spec hd
    rw [Option.bind_some, Option.bind_some, textLoop_fuel F hlen.le]

/-- **What a written format means.**  The text of a format written out of pieces is the text of the pieces:
the literal characters, and each directive with its own flags, width, precision and length, on the arguments
the ones before it have left; and the format is undefined exactly where one of the pieces is. -/
theorem formatText_spell (pieces : List Piece) (args : List Arg) :
    formatText F (pieces.flatMap Piece.spell) args = piecesText F pieces args := by
  induction pieces generalizing args with
  | nil => rfl
  | cons piece pieces ih =>
    rw [List.flatMap_cons]
    cases piece with
    | lit ch ne =>
      rw [Piece.spell, List.cons_append, List.nil_append, formatText_literal F ne, ih, piecesText]
    | directive d =>
      rw [Piece.spell, List.cons_append, formatText_directive, directive_spell, piecesText, Option.bind_map]
      congr 1
      funext r
      rw [Function.comp_apply, ih]

end Printf

end CachePool
