/-!
# Ranges of code points

A Unicode property is a set of code points, given by its ranges in ascending order.
-/

namespace ModuleCompiler.Unicode

/-- Ranges of code points, both ends included. -/
abbrev Ranges := List (Nat × Nat)

/-- Whether a code point lies in one of the ranges. -/
def Ranges.contains (ranges : Ranges) (codePoint : Nat) : Bool :=
  ranges.any fun range => range.1 ≤ codePoint && codePoint ≤ range.2

end ModuleCompiler.Unicode
