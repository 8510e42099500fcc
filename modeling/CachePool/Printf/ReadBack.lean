import CachePool.Printf.Integer

/-!
# Reading a printed number back

* `readBack` — a number in its field as a reader takes it: spaces, a sign, the prefix of the base, digits, and
  nothing but spaces behind.
* `places`, `kept`, `signPlace` — the digits of a number at its lowest places, how many of them are left when
  the zeros and the prefix are in place, and where the sign goes; `ntoaBuf_eq` takes the buffer apart.
* `Intact`, `readBack_iff` — the number that is read back is the one printed exactly if the digits left hold
  it, the prefix is whole or left out, and a minus sign finds room.
-/

set_option autoImplicit false

namespace CachePool

namespace Printf

/-! ## The reader -/

def digitVal (c : Char) : Option Nat :=
  if '0'.toNat ≤ c.toNat ∧ c.toNat ≤ '9'.toNat then some (c.toNat - '0'.toNat)
  else if 'a'.toNat ≤ c.toNat ∧ c.toNat ≤ 'f'.toNat then some (c.toNat - 'a'.toNat + 10)
  else if 'A'.toNat ≤ c.toNat ∧ c.toNat ≤ 'F'.toNat then some (c.toNat - 'A'.toNat + 10)
  else none

def isDigitOf (base : Nat) (c : Char) : Bool := (digitVal c).any (· < base)

/-- The value of a string of digits, highest first. -/
def valueOf (base : Nat) (text : List Char) : Nat :=
  text.foldl (fun n c => n * base + (digitVal c).getD 0) 0

def stripPrefix (base : Nat) : List Char → List Char
  | '0' :: 'x' :: rest => if base = 16 then rest else '0' :: 'x' :: rest
  | '0' :: 'X' :: rest => if base = 16 then rest else '0' :: 'X' :: rest
  | '0' :: 'b' :: rest => if base = 2 then rest else '0' :: 'b' :: rest
  | text => text

def readUnsigned (base : Nat) (text : List Char) : Option Nat :=
  let text := stripPrefix base text
  if (text.dropWhile (isDigitOf base)).all (· = ' ') then
    some (valueOf base (text.takeWhile (isDigitOf base)))
  else none

/-- The number in a field. -/
def readBack (base : Nat) (text : List Char) : Option Int :=
  match text.dropWhile (· = ' ') with
  | '-' :: rest => (readUnsigned base rest).map fun n : Nat => -(n : Int)
  | '+' :: rest => (readUnsigned base rest).map fun n : Nat => (n : Int)
  | rest => (readUnsigned base rest).map fun n : Nat => (n : Int)

example : readBack 10 [' ', '-', '0', '1', '2', ' '] = some (-12) := by decide

/-! ## Places of a number -/

/-- The digits of `value` at its `m` lowest places, lowest first. -/
def places (base value m : Nat) : List Nat := (List.range m).map fun j => value / base ^ j % base

@[simp] theorem places_length (base value m : Nat) : (places base value m).length = m := by simp [places]

theorem places_succ (base value m : Nat) :
    places base value (m + 1) = value % base :: places base (value / base) m := by
  simp only [places, List.range_succ_eq_map, List.map_cons, List.map_map, pow_zero, Nat.div_one,
    List.cons.injEq, true_and]
  apply List.map_congr_left
  intro j _
  simp only [Function.comp_apply, Nat.pow_succ', Nat.div_div_eq_div_mul]

theorem places_dropLast (base value m : Nat) :
    (places base value m).dropLast = places base value (m - 1) := by
  cases m with
  | zero => rfl
  | succ m => simp [places, List.range_succ]

/-- Beyond the places of a number all digits are zero. -/
theorem places_append_zeros {base value m : Nat} (hb : 0 < base) (h : value < base ^ m) (k : Nat) :
    places base value m ++ List.replicate k 0 = places base value (m + k) := by
  induction k with
  | zero => simp
  | succ k ih =>
    have hzero : value / base ^ (m + k) = 0 :=
      Nat.div_eq_of_lt (h.trans_le (Nat.pow_le_pow_right hb (by omega)))
    rw [List.replicate_succ', ← List.append_assoc, ih, ← Nat.add_assoc]
    simp [places, List.range_succ, hzero]

theorem mem_places_lt {base value m d : Nat} (hb : 0 < base) (h : d ∈ places base value m) : d < base := by
  obtain ⟨j, _, rfl⟩ := List.mem_map.mp h
  exact Nat.mod_lt _ hb

theorem ofDigits_places (base value m : Nat) :
    Nat.ofDigits base (places base value m) = value % base ^ m := by
  induction m generalizing value with
  | zero => simp [places, Nat.mod_one]
  | succ m ih => rw [places_succ, Nat.ofDigits_cons, ih, Nat.pow_succ', Nat.mod_mul]

/-! ## The buffer taken apart -/

/-- How many digits the loop writes. -/
def digitCount (base : Nat) : Nat → Nat → Nat
  | 0, _ => 0
  | room + 1, value => 1 + if value / base = 0 then 0 else digitCount base room (value / base)

/-- `buf` is the `m` lowest digits of `value`: all of them, or the buffer is full. -/
structure Body (base value : Nat) (upper : Bool) (m : Nat) (buf : List Char) : Prop where
  eq : buf = (places base value m).map (digitChar upper)
  full : value < base ^ m ∨ m = ntoaBufferSize
  le : m ≤ ntoaBufferSize

theorem Body.length {base value m : Nat} {upper : Bool} {buf : List Char} (h : Body base value upper m buf) :
    buf.length = m := by
  rw [h.eq, List.length_map, places_length]

theorem digits_eq (base : Nat) (upper : Bool) (room value : Nat) :
    digits base upper room value =
      (places base value (digitCount base room value)).map (digitChar upper) := by
  induction room generalizing value with
  | zero => rfl
  | succ room ih =>
    rw [digits, digitCount, Nat.add_comm, places_succ, List.map_cons]
    split
    · rfl
    · rw [ih]

theorem digitCount_le (base room value : Nat) : digitCount base room value ≤ room := by
  rw [← places_length base value (digitCount base room value), ← List.length_map (digitChar false),
    ← digits_eq]
  exact digits_length_le base false room value

theorem digitCount_full {base : Nat} (hb : 0 < base) (room value : Nat) (hroom : 0 < room) :
    value < base ^ digitCount base room value ∨ digitCount base room value = room := by
  induction room generalizing value with
  | zero => cases hroom
  | succ room ih =>
    rw [digitCount]
    by_cases hlast : value / base = 0
    · left
      rw [if_pos hlast, Nat.add_zero, pow_one]
      exact (Nat.div_eq_zero_iff_lt hb).mp hlast
    · rw [if_neg hlast]
      rcases Nat.eq_zero_or_pos room with rfl | hpos
      · exact .inr rfl
      · rcases ih (value / base) hpos with hlt | heq
        · left
          rw [Nat.add_comm, Nat.pow_succ]
          exact (Nat.div_lt_iff_lt_mul hb).mp hlt
        · right
          omega

/-- Digits of the value before the zeros. -/
def valueCount (value base : Nat) (flags : Flags) : Nat :=
  if !flags.precision || value != 0 then digitCount base ntoaBufferSize value else 0

theorem body_valueDigits {base : Nat} (hb : 0 < base) (value : Nat) (flags : Flags) :
    Body base value flags.uppercase (valueCount value base flags) (valueDigits value base flags) := by
  unfold valueCount valueDigits
  split
  · exact ⟨digits_eq _ _ _ _, digitCount_full hb _ _ (by decide), digitCount_le _ _ _⟩
  · rename_i hnone
    have h0 : value = 0 := by
      by_contra hne
      simp [hne] at hnone
    exact ⟨rfl, .inl (by simp [h0]), by simp⟩

/-- Places after `while (len < bound && len < 32)`. -/
def padCount (bound m : Nat) : Nat := m + (min bound ntoaBufferSize - m)

theorem Body.padZeros {base value m : Nat} {upper : Bool} {buf : List Char} (hb : 0 < base)
    (h : Body base value upper m buf) (bound : Nat) :
    Body base value upper (padCount bound m) (padZeros bound buf) := by
  have hlen := h.length
  have hle := h.le
  unfold Printf.padZeros padCount
  rw [hlen]
  rcases Nat.eq_zero_or_pos (min bound ntoaBufferSize - m) with h0 | hpos
  · rw [h0, List.replicate_zero, List.append_nil, Nat.add_zero]
    exact h
  · have hlt : value < base ^ m := by
      rcases h.full with hlt | hfull
      · exact hlt
      · omega
    refine ⟨?_, .inl (hlt.trans_le (Nat.pow_le_pow_right hb (Nat.le_add_right _ _))), by omega⟩
    have hzero : ('0' : Char) = digitChar upper 0 := by cases upper <;> rfl
    rw [← places_append_zeros hb hlt, List.map_append, List.map_replicate, ← hzero, ← h.eq]

/-- Places after the leading zeros. -/
def zeroCount (prec width : Nat) (flags : Flags) (m : Nat) : Nat :=
  if flags.left then m
  else if flags.zeropad then padCount width (padCount prec m)
  else padCount prec m

theorem Body.ntoaZeros {base value m : Nat} {upper : Bool} {buf : List Char} (hb : 0 < base)
    (h : Body base value upper m buf) (prec width : Nat) (flags : Flags) :
    Body base value upper (zeroCount prec width flags m) (ntoaZeros prec width flags buf) := by
  unfold Printf.ntoaZeros zeroCount
  split
  · exact h
  · split
    · exact (h.padZeros hb prec).padZeros hb width
    · exact h.padZeros hb prec

/-- Places after `len--`. -/
def dropCount (base prec width : Nat) (flags : Flags) (m : Nat) : Nat :=
  if !flags.precision && m != 0 && (m == prec || m == width) then
    if m - 1 != 0 && base == 16 then m - 2 else m - 1
  else m

theorem hashDrop_eq {base value m : Nat} {upper : Bool} {buf : List Char}
    (h : buf = (places base value m).map (digitChar upper)) (prec width : Nat) (flags : Flags) :
    hashDrop base prec width flags buf =
      (places base value (dropCount base prec width flags m)).map (digitChar upper) := by
  have hlen : buf.length = m := by rw [h, List.length_map, places_length]
  unfold hashDrop dropCount
  rw [hlen, List.length_dropLast, hlen]
  split
  · split
    · rw [h, ← List.map_dropLast, ← List.map_dropLast, places_dropLast, places_dropLast, Nat.sub_sub]
    · rw [h, ← List.map_dropLast, places_dropLast]
  · exact h

/-- The places that are left when zeros and prefix are in place. -/
def kept (value : Nat) (negative : Bool) (base prec width : Nat) (flags : Flags) : Nat :=
  let flags := flags.ofValue value
  let width := fieldWidth negative width flags
  let m := zeroCount prec width flags (valueCount value base flags)
  if flags.hash then dropCount base prec width flags m else m

theorem pushIfRoom_eq (c : Char) (buf : List Char) :
    pushIfRoom c buf = buf ++ [c].take (ntoaBufferSize - buf.length) := by
  unfold pushIfRoom
  split
  · rw [List.take_of_length_le (by simp only [List.length_singleton]; omega)]
  · rw [show ntoaBufferSize - buf.length = 0 by omega, List.take_zero, List.append_nil]

theorem pushIfRoom_twice (c d : Char) (buf : List Char) :
    pushIfRoom d (pushIfRoom c buf) = buf ++ [c, d].take (ntoaBufferSize - buf.length) := by
  by_cases hroom : buf.length < ntoaBufferSize
  · have hc : pushIfRoom c buf = buf ++ [c] := if_pos hroom
    rw [hc, pushIfRoom_eq, List.append_assoc, List.length_append, List.length_singleton,
      show ntoaBufferSize - buf.length = (ntoaBufferSize - (buf.length + 1)) + 1 by omega,
        List.take_succ_cons]
    rfl
  · have hc : pushIfRoom c buf = buf := if_neg hroom
    rw [hc, pushIfRoom_eq, show ntoaBufferSize - buf.length = 0 by omega, List.take_zero, List.take_zero]

/-- The prefix, lowest character first. -/
def prefixOf (base : Nat) (upper : Bool) : List Char :=
  if base = 16 then [if upper then 'X' else 'x', '0']
  else if base = 2 then ['b', '0']
  else ['0']

/-- What of the prefix fits behind `m` places. -/
def prefixChars (base : Nat) (flags : Flags) (m : Nat) : List Char :=
  if flags.hash then (prefixOf base flags.uppercase).take (ntoaBufferSize - m) else []

def signOf (negative : Bool) (flags : Flags) : List Char :=
  if negative then ['-'] else if flags.plus then ['+'] else if flags.space then [' '] else []

theorem ntoaHash_eq (base prec width : Nat) (flags : Flags) (buf : List Char) :
    ntoaHash base prec width flags buf =
      (if flags.hash then hashDrop base prec width flags buf else buf) ++
        prefixChars base flags (if flags.hash then hashDrop base prec width flags buf else buf).length := by
  unfold ntoaHash prefixChars prefixOf
  cases flags.hash with
  | false => simp
  | true =>
    by_cases h16 : base = 16
    · simpa [h16] using pushIfRoom_twice _ _ _
    · by_cases h2 : base = 2
      · simpa [h2] using pushIfRoom_twice _ _ _
      · simpa [h16, h2] using pushIfRoom_eq _ _

theorem ntoaSign_eq (negative : Bool) (flags : Flags) (buf : List Char) :
    ntoaSign negative flags buf = buf ++ (signOf negative flags).take (ntoaBufferSize - buf.length) := by
  unfold ntoaSign signOf
  split
  · exact pushIfRoom_eq _ _
  · split
    · exact pushIfRoom_eq _ _
    · split
      · exact pushIfRoom_eq _ _
      · simp

/-- Where the sign goes. -/
def signPlace (value : Nat) (negative : Bool) (base prec width : Nat) (flags : Flags) : Nat :=
  kept value negative base prec width flags +
    (prefixChars base (flags.ofValue value) (kept value negative base prec width flags)).length

/-- **The buffer taken apart**: the places that are left, the prefix and the sign as far as there is room. -/
theorem ntoaBuf_eq {base : Nat} (hb : 0 < base) (value : Nat) (negative : Bool) (prec width : Nat)
    (flags : Flags) :
    ntoaBuf value negative base prec width flags =
      (places base value (kept value negative base prec width flags)).map (digitChar flags.uppercase) ++
      prefixChars base (flags.ofValue value) (kept value negative base prec width flags) ++
      (signOf negative flags).take (ntoaBufferSize - signPlace value negative base prec width flags) := by
  have hbody := (body_valueDigits hb value (flags.ofValue value)).ntoaZeros hb prec
    (fieldWidth negative width (flags.ofValue value)) (flags.ofValue value)
  have hplaces : (if (flags.ofValue value).hash then
      hashDrop base prec (fieldWidth negative width (flags.ofValue value)) (flags.ofValue value)
        (ntoaZeros prec (fieldWidth negative width (flags.ofValue value)) (flags.ofValue value)
          (valueDigits value base (flags.ofValue value)))
      else ntoaZeros prec (fieldWidth negative width (flags.ofValue value)) (flags.ofValue value)
        (valueDigits value base (flags.ofValue value))) =
      (places base value (kept value negative base prec width flags)).map (digitChar flags.uppercase) := by
    unfold kept
    dsimp only
    split
    · exact hashDrop_eq hbody.eq prec _ _
    · exact hbody.eq
  unfold ntoaBuf
  dsimp only
  rw [ntoaSign_eq, ntoaHash_eq, hplaces, List.length_append, List.length_map, places_length]
  rfl

/-! ## Reading it -/

theorem digitVal_digitChar (upper : Bool) {d : Nat} (hd : d < 16) :
    digitVal (digitChar upper d) = some d := by
  cases upper <;> interval_cases d <;> decide

theorem isDigitOf_digitChar (upper : Bool) {base d : Nat} (hd : d < base) (hbase : base ≤ 16) :
    isDigitOf base (digitChar upper d) = true := by
  simp [isDigitOf, digitVal_digitChar upper (hd.trans_le hbase), hd]

theorem isDigitOf_space (base : Nat) : isDigitOf base ' ' = false := by
  simp [isDigitOf, show digitVal ' ' = none by decide]

/-- A text of digits of the base. -/
def AllDigits (base : Nat) (text : List Char) : Prop := ∀ c ∈ text, isDigitOf base c = true

/-- A digit is no sign and no space. -/
theorem isDigitOf_ne {base : Nat} {c : Char} (h : isDigitOf base c = true) : c ≠ ' ' ∧ c ≠ '-' ∧ c ≠ '+' := by
  refine ⟨?_, ?_, ?_⟩ <;> rintro rfl <;> simp [isDigitOf, digitVal] at h

/-- Digits with spaces behind have no prefix to strip. -/
theorem stripPrefix_digits {base : Nat} {ds : List Char} (hds : AllDigits base ds) (n : Nat) :
    stripPrefix base (ds ++ List.replicate n ' ') = ds ++ List.replicate n ' ' := by
  have hall : ∀ c ∈ ds ++ List.replicate n ' ', isDigitOf base c = true ∨ c = ' ' := by
    intro c hc
    rcases List.mem_append.mp hc with hc | hc
    · exact .inl (hds c hc)
    · exact .inr (List.eq_of_mem_replicate hc)
  generalize ds ++ List.replicate n ' ' = text at hall
  unfold stripPrefix
  split
  · rcases hall 'x' (by simp) with h | h
    · simp [isDigitOf, digitVal] at h
    · cases h
  · rcases hall 'X' (by simp) with h | h
    · simp [isDigitOf, digitVal] at h
    · cases h
  · split
    · rename_i h2
      rcases hall 'b' (by simp) with h | h
      · simp [isDigitOf, digitVal, h2] at h
      · cases h
    · rfl
  · rfl

theorem takeWhile_digits {base : Nat} {ds : List Char} (hds : AllDigits base ds) (n : Nat) :
    (ds ++ List.replicate n ' ').takeWhile (isDigitOf base) = ds ∧
      (ds ++ List.replicate n ' ').dropWhile (isDigitOf base) = List.replicate n ' ' := by
  induction ds with
  | nil =>
    cases n with
    | zero => exact ⟨rfl, rfl⟩
    | succ n => simp [List.replicate_succ, isDigitOf_space]
  | cons d ds ih =>
    have hd := hds d (by simp)
    obtain ⟨htake, hdrop⟩ := ih fun c hc => hds c (List.mem_cons_of_mem _ hc)
    simp [hd, htake, hdrop]

theorem valueOf_places {base : Nat} (upper : Bool) (hbase : base ≤ 16) (ds : List Nat)
    (hds : ∀ d ∈ ds, d < base) :
    valueOf base (ds.map (digitChar upper)).reverse = Nat.ofDigits base ds := by
  unfold valueOf
  rw [List.foldl_reverse, List.foldr_map, Nat.ofDigits_eq_foldr]
  induction ds with
  | nil => rfl
  | cons d ds ih =>
    have hd := digitVal_digitChar upper ((hds d (by simp)).trans_le hbase)
    rw [List.foldr_cons, List.foldr_cons, ih fun c hc => hds c (List.mem_cons_of_mem _ hc), hd]
    simp only [Option.getD_some, Nat.cast_id]
    ring

/-- What is left after the prefix: digits, highest first, with spaces behind. -/
def digitField (upper : Bool) (ds : List Nat) (n : Nat) : List Char :=
  (ds.map (digitChar upper)).reverse ++ List.replicate n ' '

theorem allDigits_field {base : Nat} (h16 : base ≤ 16) (upper : Bool) {ds : List Nat}
    (hds : ∀ d ∈ ds, d < base) :
    AllDigits base (ds.map (digitChar upper)).reverse := by
  intro c hc
  obtain ⟨d, hd, rfl⟩ := List.mem_map.mp (List.mem_reverse.mp hc)
  exact isDigitOf_digitChar upper (hds d hd) h16

theorem readField {base : Nat} (h16 : base ≤ 16) (upper : Bool) {ds : List Nat} (hds : ∀ d ∈ ds, d < base)
    (n : Nat) {text : List Char} (htext : stripPrefix base text = digitField upper ds n) :
    readUnsigned base text = some (Nat.ofDigits base ds) := by
  obtain ⟨htake, hdrop⟩ := takeWhile_digits (allDigits_field h16 upper hds) n
  unfold readUnsigned
  dsimp only
  rw [htext, digitField, htake, hdrop, valueOf_places upper h16 _ hds, if_pos]
  simp

/-- `rest` is read as `r`, with or without spaces and a sign before it. -/
structure Unsigned (base : Nat) (rest : List Char) (r : Option Nat) : Prop where
  read : readUnsigned base rest = r
  bare : readUnsigned base (rest.dropWhile (· = ' ')) = r
  head : ∀ c, (rest.dropWhile (· = ' ')).head? = some c → c ≠ '-' ∧ c ≠ '+'

theorem Unsigned.of_cons {base : Nat} {c : Char} {rest : List Char} {r : Option Nat}
    (hread : readUnsigned base (c :: rest) = r) (hc : c ≠ ' ' ∧ c ≠ '-' ∧ c ≠ '+') :
    Unsigned base (c :: rest) r := by
  have hdrop : (c :: rest).dropWhile (· = ' ') = c :: rest := by simp [hc.1]
  refine ⟨hread, by rw [hdrop, hread], ?_⟩
  intro d hd
  rw [hdrop] at hd
  obtain rfl := Option.some.inj hd
  exact hc.2

theorem Unsigned.spaces {base : Nat} (n : Nat) : Unsigned base (List.replicate n ' ') (some 0) := by
  have hread : ∀ k, readUnsigned base (List.replicate k ' ') = some 0 := by
    intro k
    have hnil : AllDigits base [] := by simp [AllDigits]
    have hstrip := stripPrefix_digits hnil k
    obtain ⟨htake, hdrop⟩ := takeWhile_digits hnil k
    rw [List.nil_append] at hstrip htake hdrop
    unfold readUnsigned
    dsimp only
    rw [hstrip, htake, hdrop, if_pos (by simp)]
    rfl
  have hdrop : (List.replicate n ' ').dropWhile (· = ' ') = [] := by simp
  refine ⟨hread n, ?_, ?_⟩
  · rw [hdrop]
    exact hread 0
  · rw [hdrop]
    simp

/-- A field with a number that may have a sign. -/
theorem Unsigned.field {base : Nat} {rest : List Char} {r : Option Nat} (h : Unsigned base rest r) (n : Nat)
    {sgn : List Char} (hsgn : sgn = [] ∨ sgn = ['-'] ∨ sgn = ['+'] ∨ sgn = [' ']) :
    readBack base (List.replicate n ' ' ++ (sgn ++ rest)) =
      r.map fun v : Nat => if sgn = ['-'] then -(v : Int) else (v : Int) := by
  have hspaces : ∀ text, (List.replicate n ' ' ++ text).dropWhile (· = ' ') = text.dropWhile (· = ' ') := by
    intro text
    induction n with
    | zero => rfl
    | succ n ih =>
      rw [List.replicate_succ, List.cons_append, List.dropWhile_cons, if_pos (by simp)]
      exact ih
  have hbare : readBack base rest = r.map fun v : Nat => (v : Int) := by
    unfold readBack
    split
    · rename_i heq
      have hhead := h.head '-' (by rw [heq]; rfl)
      exact absurd rfl hhead.1
    · rename_i heq
      have hhead := h.head '+' (by rw [heq]; rfl)
      exact absurd rfl hhead.2
    · rw [h.bare]
  rcases hsgn with rfl | rfl | rfl | rfl
  · unfold readBack at hbare ⊢
    rw [hspaces, List.nil_append]
    simpa using hbare
  · unfold readBack
    rw [hspaces]
    simp [h.read]
  · unfold readBack
    rw [hspaces]
    simp [h.read]
  · unfold readBack at hbare ⊢
    rw [hspaces, List.singleton_append, List.dropWhile_cons, if_pos (by simp)]
    simpa using hbare

/-- A text whose first character is a digit, or that has no digits at all. -/
theorem Unsigned.digits {base : Nat} (h16 : base ≤ 16) (upper : Bool) {ds : List Nat}
    (hds : ∀ d ∈ ds, d < base) (n : Nat) :
    Unsigned base (digitField upper ds n) (some (Nat.ofDigits base ds)) := by
  have hall := allDigits_field h16 upper hds
  have hread : readUnsigned base (digitField upper ds n) = some (Nat.ofDigits base ds) :=
    readField h16 upper hds n (stripPrefix_digits hall n)
  rcases ds.eq_nil_or_concat with rfl | ⟨ds', d, rfl⟩
  · exact Unsigned.spaces n
  · have hcons : digitField upper (ds'.concat d) n =
        digitChar upper d :: digitField upper ds' n := by
      simp [digitField]
    rw [hcons] at hread ⊢
    apply Unsigned.of_cons hread
    exact isDigitOf_ne (hall _ (by simp))

/-- The prefix is cut off in the middle. -/
def PrefixCut (base : Nat) (flags : Flags) (m : Nat) : Prop :=
  flags.hash = true ∧ (base = 16 ∨ base = 2) ∧ m + 1 = ntoaBufferSize

instance (base : Nat) (flags : Flags) (m : Nat) : Decidable (PrefixCut base flags m) := by
  unfold PrefixCut
  infer_instance

/-- A letter that stands first is no digit, no sign and no space. -/
theorem unsigned_letter {base : Nat} {c : Char} (hc : c = 'x' ∨ c = 'X' ∨ (base = 2 ∧ c = 'b'))
    (rest : List Char) :
    Unsigned base (c :: rest) none := by
  have hdigit : isDigitOf base c = false := by
    rcases hc with rfl | rfl | ⟨rfl, rfl⟩ <;> simp [isDigitOf, digitVal]
  have hspace : c ≠ ' ' ∧ c ≠ '-' ∧ c ≠ '+' := by
    rcases hc with rfl | rfl | ⟨_, rfl⟩ <;> simp
  have hzero : c ≠ '0' := by
    rcases hc with rfl | rfl | ⟨_, rfl⟩ <;> simp
  have hstrip : stripPrefix base (c :: rest) = c :: rest := by
    unfold stripPrefix
    split <;> simp_all
  apply Unsigned.of_cons _ hspace
  unfold readUnsigned
  simp [hstrip, hdigit, hspace.1]

/-- A `0` before the digits is one more digit. -/
theorem unsigned_zero {base : Nat} (hb : 0 < base) (h16 : base ≤ 16) (upper : Bool) {ds : List Nat}
    (hds : ∀ d ∈ ds, d < base) (n : Nat) :
    Unsigned base ('0' :: digitField upper ds n) (some (Nat.ofDigits base ds)) := by
  have hzero : ('0' : Char) = digitChar upper 0 := by cases upper <;> rfl
  have hfield : '0' :: digitField upper ds n = digitField upper (ds ++ [0]) n := by
    simp only [digitField, List.map_append, List.map_singleton, List.reverse_append, ← hzero]
    rfl
  have hvalue : Nat.ofDigits base (ds ++ [0]) = Nat.ofDigits base ds := by
    rw [Nat.ofDigits_append]
    simp
  rw [hfield, ← hvalue]
  apply Unsigned.digits h16
  intro d hd
  rcases List.mem_append.mp hd with hd | hd
  · exact hds d hd
  · rw [List.mem_singleton.mp hd]
    exact hb

/-- A number behind a whole prefix. -/
theorem unsigned_whole {base : Nat} (h16 : base ≤ 16) (upper : Bool) {ds : List Nat}
    (hds : ∀ d ∈ ds, d < base) (n : Nat) {c : Char}
    (hc : (base = 16 ∧ (c = 'x' ∨ c = 'X')) ∨ (base = 2 ∧ c = 'b')) :
    Unsigned base ('0' :: c :: digitField upper ds n) (some (Nat.ofDigits base ds)) := by
  apply Unsigned.of_cons
  · apply readField h16 upper hds n
    rcases hc with ⟨rfl, rfl | rfl⟩ | ⟨rfl, rfl⟩ <;> rfl
  · simp

/-- A number with what fits of its prefix. -/
theorem unsigned_marked {base : Nat} (hb : 2 ≤ base) (h16 : base ≤ 16) (flags : Flags) (value m n : Nat) :
    Unsigned base ((prefixChars base flags m).reverse ++ digitField flags.uppercase (places base value m) n)
      (if PrefixCut base flags m then none else some (value % base ^ m)) := by
  have hds : ∀ d ∈ places base value m, d < base := fun d hd => mem_places_lt (by omega) hd
  have hvalue := ofDigits_places base value m
  have hbare := Unsigned.digits h16 flags.uppercase hds n
  have hzero := unsigned_zero (by omega) h16 flags.uppercase hds n
  rw [hvalue] at hbare hzero
  by_cases hhash : flags.hash = true
  · obtain hfull | hcut | ⟨k, hroom⟩ : ntoaBufferSize - m = 0 ∨ ntoaBufferSize - m = 1 ∨
        ∃ k, ntoaBufferSize - m = k + 2 := by
      rcases ntoaBufferSize - m with _ | _ | k
      · exact .inl rfl
      · exact .inr (.inl rfl)
      · exact .inr (.inr ⟨k, rfl⟩)
    · rw [if_neg fun hcut => by have h := hcut.2.2; omega]
      simpa [prefixChars, hhash, hfull] using hbare
    · by_cases hletter : base = 16 ∨ base = 2
      · rw [if_pos ⟨hhash, hletter, by omega⟩]
        rcases hletter with rfl | rfl
        · have hx : Unsigned 16 ((if flags.uppercase then 'X' else 'x') ::
              digitField flags.uppercase (places 16 value m) n) none :=
            unsigned_letter (by cases flags.uppercase <;> simp) _
          simpa [prefixChars, prefixOf, hhash, hcut] using hx
        · have hx : Unsigned 2 ('b' :: digitField flags.uppercase (places 2 value m) n) none :=
            unsigned_letter (by simp) _
          simpa [prefixChars, prefixOf, hhash, hcut] using hx
      · rw [if_neg fun hc => hletter hc.2.1]
        rw [not_or] at hletter
        simpa [prefixChars, prefixOf, hhash, hcut, hletter] using hzero
    · rw [if_neg fun hcut => by have h := hcut.2.2; omega]
      by_cases hletter : base = 16 ∨ base = 2
      · rcases hletter with rfl | rfl
        · have hx := unsigned_whole h16 flags.uppercase hds n (c := if flags.uppercase then 'X' else 'x')
            (by cases flags.uppercase <;> simp)
          rw [hvalue] at hx
          simpa [prefixChars, prefixOf, hhash, hroom] using hx
        · have hx := unsigned_whole h16 flags.uppercase hds n (c := 'b') (by simp)
          rw [hvalue] at hx
          simpa [prefixChars, prefixOf, hhash, hroom] using hx
      · rw [not_or] at hletter
        simpa [prefixChars, prefixOf, hhash, hroom, hletter] using hzero
  · rw [if_neg fun hcut => hhash hcut.1]
    simpa [prefixChars, hhash] using hbare

/-! ## What is read back -/

/-- **The number survives**: the places left hold it, the prefix is not cut, and a minus sign has room. -/
structure Intact (value : Nat) (negative : Bool) (base prec width : Nat) (flags : Flags) : Prop where
  places : value < base ^ kept value negative base prec width flags
  whole : ¬ PrefixCut base (flags.ofValue value) (kept value negative base prec width flags)
  sign : negative = true → value ≠ 0 → signPlace value negative base prec width flags < ntoaBufferSize

theorem revText_spaces (buf : List Char) (width : Nat) (flags : Flags) :
    ∃ a b, revText buf width flags = List.replicate a ' ' ++ (buf.reverse ++ List.replicate b ' ') := by
  refine ⟨if !flags.left && !flags.zeropad then width - buf.length else 0,
    if flags.left then width - buf.length else 0, ?_⟩
  unfold revText
  cases flags.left <;> cases flags.zeropad <;> simp

theorem signOf_take (negative : Bool) (flags : Flags) (room : Nat) :
    ((signOf negative flags).take room = [] ∨ (signOf negative flags).take room = ['-'] ∨
      (signOf negative flags).take room = ['+'] ∨ (signOf negative flags).take room = [' ']) ∧
    ((signOf negative flags).take room = ['-'] ↔ negative = true ∧ 0 < room) := by
  unfold signOf
  rcases room with _ | room
  · simp
  · cases negative <;> cases flags.plus <;> cases flags.space <;> simp

/-- What a reader makes of the text. -/
theorem readBack_ntoaText {base : Nat} (hb : 2 ≤ base) (h16 : base ≤ 16) (value : Nat) (negative : Bool)
    (prec width : Nat) (flags : Flags) :
    readBack base (ntoaText value negative base prec width flags) =
      if PrefixCut base (flags.ofValue value) (kept value negative base prec width flags) then none
      else some (if negative = true ∧ signPlace value negative base prec width flags < ntoaBufferSize then
        -((value % base ^ kept value negative base prec width flags : Nat) : Int)
        else ((value % base ^ kept value negative base prec width flags : Nat) : Int)) := by
  obtain ⟨a, b, htext⟩ := revText_spaces (ntoaBuf value negative base prec width flags)
    (fieldWidth negative width flags) flags
  obtain ⟨hsgn, hminus⟩ := signOf_take negative flags
    (ntoaBufferSize - signPlace value negative base prec width flags)
  have hunsigned := unsigned_marked hb h16 (flags.ofValue value) value
    (kept value negative base prec width flags) b
  have hrev : ∀ sgn : List Char, sgn = [] ∨ sgn = ['-'] ∨ sgn = ['+'] ∨ sgn = [' '] → sgn.reverse = sgn := by
    rintro sgn (rfl | rfl | rfl | rfl) <;> rfl
  have hshape : (ntoaBuf value negative base prec width flags).reverse ++ List.replicate b ' ' =
      (signOf negative flags).take (ntoaBufferSize - signPlace value negative base prec width flags) ++
      ((prefixChars base (flags.ofValue value) (kept value negative base prec width flags)).reverse ++
        digitField (flags.ofValue value).uppercase
          (places base value (kept value negative base prec width flags)) b) := by
    rw [ntoaBuf_eq (by omega), List.reverse_append, List.reverse_append, hrev _ hsgn]
    simp [digitField, Flags.ofValue]
  rw [ntoaText, htext, hshape, hunsigned.field a hsgn]
  by_cases hcut : PrefixCut base (flags.ofValue value) (kept value negative base prec width flags)
  · rw [if_pos hcut, if_pos hcut, Option.map_none]
  · rw [if_neg hcut, if_neg hcut, Option.map_some]
    simp only [hminus, Nat.sub_pos_iff_lt]

/-- **Reading back.**  For every number, base, precision, width and flags: the number that is read back from
its field is the one that was printed exactly if it is intact. -/
theorem readBack_iff {base : Nat} (hb : 2 ≤ base) (h16 : base ≤ 16) (value : Nat) (negative : Bool)
    (prec width : Nat) (flags : Flags) :
    readBack base (ntoaText value negative base prec width flags) =
        some (if negative then -(value : Int) else value) ↔
      Intact value negative base prec width flags := by
  have hpow : 0 < base ^ kept value negative base prec width flags := Nat.pow_pos (by omega)
  rw [readBack_ntoaText hb h16]
  constructor
  · intro h
    split at h
    · cases h
    · rename_i hwhole
      rw [Option.some.injEq] at h
      have hle := Nat.mod_le value (base ^ kept value negative base prec width flags)
      have hmod : value % base ^ kept value negative base prec width flags = value := by
        generalize value % base ^ kept value negative base prec width flags = r at h hle
        cases negative with
        | false =>
          simp only [Bool.false_eq_true, false_and, if_false] at h
          omega
        | true =>
          simp only [true_and, if_true] at h
          split at h <;> omega
      have hlt := Nat.mod_lt value hpow
      rw [hmod] at hlt h
      refine ⟨hlt, hwhole, fun hneg h0 => ?_⟩
      by_contra hroom
      rw [if_neg fun hand => hroom hand.2, hneg, if_pos rfl] at h
      omega
  · rintro ⟨hplaces, hwhole, hsign⟩
    rw [if_neg hwhole, Nat.mod_eq_of_lt hplaces]
    by_cases h0 : value = 0
    · simp [h0]
    · cases hneg : negative with
      | false => simp
      | true =>
        have hroom := hsign hneg h0
        rw [hneg] at hroom
        simp [hroom]

theorem digitCount_le_of_lt {base : Nat} (hb : 0 < base) (room : Nat) {value k : Nat} (hk : 0 < k)
    (h : value < base ^ k) : digitCount base room value ≤ k := by
  induction room generalizing value k with
  | zero => exact Nat.zero_le _
  | succ room ih =>
    rw [digitCount]
    by_cases hlast : value / base = 0
    · rw [if_pos hlast]
      exact hk
    · rw [if_neg hlast]
      cases k with
      | zero => cases hk
      | succ k =>
        rw [Nat.pow_succ] at h
        have hquot : value / base < base ^ k := (Nat.div_lt_iff_lt_mul hb).mpr h
        have hpos : 0 < k := by
          by_contra h0
          rw [Nat.eq_zero_of_not_pos h0, pow_zero] at hquot
          exact hlast (Nat.lt_one_iff.mp hquot)
        have hrest := ih hpos hquot
        omega

theorem padCount_lt {bound m : Nat} (hbound : bound < ntoaBufferSize) (hm : m < ntoaBufferSize) :
    padCount bound m < ntoaBufferSize := by
  unfold padCount
  omega

theorem zeroCount_lt {prec width m : Nat} {flags : Flags} (hm : m < ntoaBufferSize)
    (hprec : prec < ntoaBufferSize)
    (hwidth : flags.left = false → flags.zeropad = true → width < ntoaBufferSize) :
    zeroCount prec width flags m < ntoaBufferSize := by
  unfold zeroCount
  split
  · exact hm
  · rename_i hleft
    split
    · rename_i hzero
      exact padCount_lt (hwidth (by simpa using hleft) hzero) (padCount_lt hprec hm)
    · exact padCount_lt hprec hm

/-- **What always survives**: a number of 64 bits in base 8 or above without the prefix, where neither
precision nor leading zeros fill the buffer. -/
theorem intact_plain {base value : Nat} (h8 : 8 ≤ base) (hvalue : value < 2 ^ 64) (negative : Bool)
    {prec width : Nat} {flags : Flags} (hhash : flags.hash = false) (hprec : prec < ntoaBufferSize)
    (hwidth : flags.zeropad = true → width ≤ ntoaBufferSize) :
    Intact value negative base prec width flags := by
  have hlt : value < base ^ 22 :=
    hvalue.trans_le ((show 2 ^ 64 ≤ 8 ^ 22 by decide).trans (Nat.pow_le_pow_left h8 22))
  have hcount : valueCount value base (flags.ofValue value) ≤ 22 := by
    unfold valueCount
    split
    · exact digitCount_le_of_lt (by omega) _ (by decide) hlt
    · exact Nat.zero_le _
  have hoff : (flags.ofValue value).hash = false := by simp [Flags.ofValue, hhash]
  have hkept : kept value negative base prec width flags =
      zeroCount prec (fieldWidth negative width (flags.ofValue value)) (flags.ofValue value)
        (valueCount value base (flags.ofValue value)) := by
    simp [kept, hoff]
  have hroom : negative = true → kept value negative base prec width flags < ntoaBufferSize := by
    intro hneg
    rw [hkept]
    apply zeroCount_lt (hcount.trans_lt (by decide)) hprec
    intro hleft hzero
    have hle := hwidth hzero
    simp only [Flags.ofValue] at hleft hzero
    simp only [fieldWidth, Flags.ofValue, hneg, hleft, hzero, ntoaBufferSize] at hle ⊢
    split
    · omega
    · rename_i hw
      simp at hw
      omega
  refine ⟨?_, fun hcut => ?_, fun hneg _ => ?_⟩
  · have hbody := (body_valueDigits (show 0 < base by omega) value (flags.ofValue value)).ntoaZeros
      (by omega) prec
      (fieldWidth negative width (flags.ofValue value)) (flags.ofValue value)
    rw [← hkept] at hbody
    rcases hbody.full with hfit | hfull
    · exact hfit
    · rw [hfull]
      exact hlt.trans_le (Nat.pow_le_pow_right (by omega) (by decide))
  · have hon := hcut.1
    rw [hoff] at hon
    cases hon
  · unfold signPlace prefixChars
    rw [hoff, if_neg Bool.false_ne_true, List.length_nil, Nat.add_zero]
    exact hroom hneg

/-- **Printed integers read back.**  For every value, base, precision, width and flags there is one text that
`_ntoa_long`, for a word of that value, and `_ntoa_long_long`, for a double word of that value, put to every
output function.  What is read back from it is the number exactly if it is intact, which a number of 64 bits
is without the prefix unless the precision fills the buffer or more leading zeros are asked for than the
buffer holds. -/
theorem ntoa_reads_back {base : Nat} (hb : 2 ≤ base) (h16 : base ≤ 16) (value : Nat) (negative : Bool)
    (prec : Nat) {width : Nat} (hwidth : width < wordSize) (flags : Flags) :
    ∃ text : List Char,
      (∀ (β : Type) (out : OutFct β) (maxlen : Nat) (c : Cursor β), c.idx < wordSize →
        (∀ v : BitVec 32, v.toNat = value →
          ntoaLong out maxlen c v negative base prec width flags = putAll out maxlen c text) ∧
        ∀ v : BitVec 64, v.toNat = value →
          ntoaLongLong out maxlen c v negative base prec width flags = putAll out maxlen c text) ∧
      (readBack base text = some (if negative then -(value : Int) else value) ↔
        Intact value negative base prec width flags) ∧
      (8 ≤ base → value < 2 ^ 64 → flags.hash = false → prec < ntoaBufferSize →
        (flags.zeropad = true → width ≤ ntoaBufferSize) →
        readBack base text = some (if negative then -(value : Int) else value)) := by
  have hiff := readBack_iff hb h16 value negative prec width flags
  refine ⟨ntoaText value negative base prec width flags, fun β out maxlen c hc => ?_, hiff, ?_⟩
  · have hput := ntoa_eq out maxlen c hc value negative base prec hwidth flags
    constructor
    · rintro v rfl
      exact hput
    · rintro v rfl
      exact hput
  · intro h8 hvalue hhash hprec hzero
    exact hiff.mpr (intact_plain h8 hvalue negative hhash hprec hzero)

theorem ntoa_reads_back_ten : ∃ text : List Char,
    (∀ (β : Type) (out : OutFct β) (maxlen : Nat) (c : Cursor β), c.idx < wordSize →
      ntoaLong out maxlen c 255 true 10 5 9 { Flags.none with zeropad := true } = putAll out maxlen c text) ∧
    readBack 10 text = some (-255) := by
  obtain ⟨text, hput, _, hread⟩ := ntoa_reads_back (show 2 ≤ 10 by decide) (by decide) 255 true 5
    (show 9 < wordSize by decide) { Flags.none with zeropad := true }
  exact ⟨text, fun β out maxlen c hc => (hput β out maxlen c hc).1 255 rfl,
    hread (by decide) (by decide) rfl (by decide) (by decide)⟩

end Printf

end CachePool
