import ModuleCompiler.Text.Basic

/-!
# JSON tokens

The tokens of a JSON text: punctuation, literals, numbers and strings, with the four blank
characters of JSON between them.

A string is read in two steps: `stringBody?` finds its closing quote, and `decodePieces?` turns what
stands before it into a text. A string whose escapes name half of a surrogate pair is well formed
and has no text, so a record that does not use it can still be read.
-/

namespace ModuleCompiler.Json

/-- A token. The value of a number is not kept, since no record of the compiler holds one. -/
inductive Token where
  | leftBrace
  | rightBrace
  | leftBracket
  | rightBracket
  | colon
  | comma
  | null
  | bool (value : Bool)
  | number
  | string (text : Option Text)
deriving DecidableEq

/-! ## Strings -/

/-- A part of a string: a character, or the number of an escaped UTF-16 unit. -/
inductive Piece where
  | char (c : Char)
  | unit (value : Nat)
deriving DecidableEq

/-- The value of a hexadecimal digit. -/
def hexValue? (c : Char) : Option Nat :=
  if '0' ≤ c ∧ c ≤ '9' then some (c.toNat - '0'.toNat)
  else if 'a' ≤ c ∧ c ≤ 'f' then some (c.toNat - 'a'.toNat + 10)
  else if 'A' ≤ c ∧ c ≤ 'F' then some (c.toNat - 'A'.toNat + 10)
  else none

/-- The number that four hexadecimal digits denote. -/
def unitValue? (a b c d : Char) : Option Nat := do
  return (((← hexValue? a) * 16 + (← hexValue? b)) * 16 + (← hexValue? c)) * 16 + (← hexValue? d)

/-- The character that a backslash and `c` denote. -/
def escaped? (c : Char) : Option Char :=
  if c = '"' ∨ c = '\\' ∨ c = '/' then some c
  else if c = 'b' then some '\x08'
  else if c = 'f' then some '\x0c'
  else if c = 'n' then some '\n'
  else if c = 'r' then some '\r'
  else if c = 't' then some '\t'
  else none

/-- The pieces of a string up to its closing quote, and what follows. -/
def stringBody? : Text → Option (List Piece × Text)
  | [] => none
  | '"' :: rest => some ([], rest)
  | '\\' :: 'u' :: a :: b :: c :: d :: rest => do
    let value ← unitValue? a b c d
    let (pieces, rest) ← stringBody? rest
    return (.unit value :: pieces, rest)
  | '\\' :: c :: rest => do
    let c ← escaped? c
    let (pieces, rest) ← stringBody? rest
    return (.char c :: pieces, rest)
  | c :: rest =>
    if c.toNat < 0x20 ∨ c = '\\' then none
    else do
      let (pieces, rest) ← stringBody? rest
      return (.char c :: pieces, rest)

/-- The text of a string. Escaped units outside the surrogate range stand for themselves, a high
and a low surrogate together for one character, and a surrogate alone for none. -/
def decodePieces? : List Piece → Option Text
  | [] => some []
  | .char c :: rest => (decodePieces? rest).map (c :: ·)
  | .unit value :: rest =>
    if value < 0xD800 ∨ 0xE000 ≤ value then (decodePieces? rest).map (Char.ofNat value :: ·)
    else
      match rest with
      | .unit low :: rest =>
        if value < 0xDC00 ∧ 0xDC00 ≤ low ∧ low < 0xE000 then
          (decodePieces? rest).map
            (Char.ofNat (0x10000 + (value - 0xD800) * 0x400 + (low - 0xDC00)) :: ·)
        else
          none
      | _ => none

/-! ## Numbers -/

/-- What follows a nonempty run of digits. -/
def dropDigits? (text : Text) : Option Text :=
  match text with
  | [] => none
  | c :: rest => if c.isDigit then some (rest.dropWhile Char.isDigit) else none

/-- What follows the whole part of a number, which has no leading zeros. -/
def dropWhole? : Text → Option Text
  | '0' :: rest => some rest
  | text => dropDigits? text

/-- What follows the fraction of a number, which may be missing. -/
def dropFraction? : Text → Option Text
  | '.' :: rest => dropDigits? rest
  | text => some text

/-- What follows the sign of an exponent, which may be missing. -/
def dropSign : Text → Text
  | '+' :: rest => rest
  | '-' :: rest => rest
  | text => text

/-- What follows the exponent of a number, which may be missing. -/
def dropExponent? : Text → Option Text
  | 'e' :: rest => dropDigits? (dropSign rest)
  | 'E' :: rest => dropDigits? (dropSign rest)
  | text => some text

/-- What follows a number. -/
def dropNumber? (text : Text) : Option Text := do
  let whole := match text with
    | '-' :: rest => rest
    | _ => text
  dropExponent? (← dropFraction? (← dropWhole? whole))

/-! ## The tokens of a text -/

/-- Whether a character may stand between tokens. -/
def isSpace (c : Char) : Bool :=
  c == ' ' || c == '\t' || c == '\n' || c == '\r'

/-- The token that starts with `c`, where `rest` follows, and what comes behind it. -/
def tokenAt? (c : Char) (rest : Text) : Option (Token × Text) :=
  if c = '\x7b' then some (.leftBrace, rest)
  else if c = '\x7d' then some (.rightBrace, rest)
  else if c = '[' then some (.leftBracket, rest)
  else if c = ']' then some (.rightBracket, rest)
  else if c = ':' then some (.colon, rest)
  else if c = ',' then some (.comma, rest)
  else if c = '"' then (stringBody? rest).map fun (pieces, after) =>
    (.string (decodePieces? pieces), after)
  else if c = 'n' then (Text.dropStart? "ull" rest).map fun after => (.null, after)
  else if c = 't' then (Text.dropStart? "rue" rest).map fun after => (.bool true, after)
  else if c = 'f' then (Text.dropStart? "alse" rest).map fun after => (.bool false, after)
  else (dropNumber? (c :: rest)).map fun after => (.number, after)

/-- The tokens of a text, where tokens and blanks together are at most `fuel`. -/
def tokensWithin? : Nat → Text → Option (List Token)
  | _, [] => some []
  | 0, _ :: _ => none
  | fuel + 1, c :: rest =>
    if isSpace c then tokensWithin? fuel rest
    else
      match tokenAt? c rest with
      | none => none
      | some (token, after) => (tokensWithin? fuel after).map (token :: ·)

/-- The tokens of a text. Each takes at least one character. -/
def tokens? (text : Text) : Option (List Token) :=
  tokensWithin? text.length text

end ModuleCompiler.Json
