/-!
# Text

A text is the list of its characters. Everything the compiler reads and writes (pathnames, module
ids, program text, messages) is a text, so the list library and its lemmas apply to all of it.

Positions in program text count UTF-8 bytes; `takeBytes` and `dropBytes` cut there and never inside
a character. Everything else counts characters.
-/

namespace ModuleCompiler

/-- A text, as the list of its characters. -/
abbrev Text := List Char

instance : Coe String Text := ⟨String.toList⟩

namespace Text

/-! ## Bytes -/

/-- The number of bytes the text takes in UTF-8. -/
def byteLength : Text → Nat
  | [] => 0
  | c :: rest => c.utf8Size + byteLength rest

/-- The longest initial piece that takes at most `count` bytes. -/
def takeBytes : Nat → Text → Text
  | _, [] => []
  | count, c :: rest =>
    if c.utf8Size ≤ count then c :: takeBytes (count - c.utf8Size) rest else []

/-- What `takeBytes` leaves. -/
def dropBytes : Nat → Text → Text
  | _, [] => []
  | count, c :: rest =>
    if c.utf8Size ≤ count then dropBytes (count - c.utf8Size) rest else c :: rest

/-- Cutting a text at a number of bytes loses nothing. -/
theorem takeBytes_append_dropBytes (count : Nat) (text : Text) :
    takeBytes count text ++ dropBytes count text = text := by
  induction text generalizing count with
  | nil => simp [takeBytes, dropBytes]
  | cons c rest ih =>
    simp only [takeBytes, dropBytes]
    split
    · simp [ih]
    · simp

/-! ## Pieces -/

/-- The pieces before and after the first occurrence of `separator`. -/
def cut? (separator : Char) (text : Text) : Option (Text × Text) :=
  match text.dropWhile (· != separator) with
  | [] => none
  | _ :: after => some (text.takeWhile (· != separator), after)

/-- The text without the run of `c` it starts with. -/
def dropLeading (c : Char) (text : Text) : Text :=
  text.dropWhile (· == c)

/-- The text without the run of `c` it ends with. -/
def dropTrailing (c : Char) (text : Text) : Text :=
  (text.reverse.dropWhile (· == c)).reverse

/-- The text without its last character, when that is `c`. -/
def dropFinal? (c : Char) (text : Text) : Option Text :=
  if text.getLast? = some c then some text.dropLast else none

/-- What follows `start` in a text that starts with it. -/
def dropStart? (start text : Text) : Option Text :=
  start.isPrefixOf? text

/-- The pieces of `texts` with `separator` between neighbours. -/
def joined (separator : Text) (texts : List Text) : Text :=
  separator.intercalate texts

/-! ## Replacing -/

/-- Walks the text with `skip` characters of a replaced occurrence still to be passed over. -/
def replaceFrom (pattern replacement : Text) : Nat → Text → Text
  | _, [] => []
  | skip + 1, _ :: rest => replaceFrom pattern replacement skip rest
  | 0, c :: rest =>
    if pattern.isPrefixOf (c :: rest) then
      replacement ++ replaceFrom pattern replacement (pattern.length - 1) rest
    else
      c :: replaceFrom pattern replacement 0 rest

/-- Replaces every occurrence of a nonempty `pattern`; the leftmost is taken first and occurrences
do not overlap. -/
def replaceAll (pattern replacement text : Text) : Text :=
  replaceFrom pattern replacement 0 text

/-! ## Numbers -/

/-- The decimal digits of a number, without leading zeros. -/
def ofNat (n : Nat) : Text :=
  Nat.toDigits 10 n

/-- The number below `2 ^ 64` that a nonempty run of ASCII digits denotes. -/
def toUInt64? (text : Text) : Option UInt64 :=
  if text ≠ [] ∧ text.all Char.isDigit then
    let value := Nat.ofDigitChars 10 text 0
    if value < UInt64.size then some (UInt64.ofNat value) else none
  else
    none

end Text

end ModuleCompiler
