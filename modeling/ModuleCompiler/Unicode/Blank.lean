import ModuleCompiler.Unicode.Ranges

/-!
# Blank characters

The characters that may stand between the tokens of a call: the Unicode property `White_Space`,
25 characters in all.
-/

namespace ModuleCompiler.Unicode

/-- The blank characters: tab to carriage return, the space, and those beyond ASCII. -/
def blankRanges : Ranges :=
  [(0x9, 0xD), (0x20, 0x20), (0x85, 0x85), (0xA0, 0xA0), (0x1680, 0x1680),
   (0x2000, 0x200A), (0x2028, 0x2029), (0x202F, 0x202F), (0x205F, 0x205F), (0x3000, 0x3000)]

/-- Whether a character is blank. -/
def isBlank (c : Char) : Bool :=
  blankRanges.contains c.toNat

/-- There are 25 blank characters. -/
example : (blankRanges.map fun range => range.2 + 1 - range.1).sum = 25 := by decide

end ModuleCompiler.Unicode
