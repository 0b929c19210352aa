import ModuleCompiler.CompileError
import ModuleCompiler.Unicode.DecimalDigit
import ModuleCompiler.Version.Basic

/-!
# Version constraints

A path segment `X.Y.Z` asks for exactly this version, `X.Y.Z+` for this one or a newer one and
`X.Y.Z-` for this one or an older one.

Two readings of such a segment are kept apart. A `VersionSegment` holds its parts as written, whose
digits may be of any script; that is what makes a path versioned. A `Constraint` is what the segment
means, which it does only when its digits are ASCII and its numbers fit 64 bits; `Constraint.parse`
refuses the others.
-/

namespace ModuleCompiler

/-- The versions a constraint accepts beside the one it names. -/
inductive Direction where
  | exact
  | atLeast
  | atMost
deriving DecidableEq, Repr

/-- The mark of a direction behind a version. -/
def Direction.mark : Direction → Text
  | exact => []
  | atLeast => ['+']
  | atMost => ['-']

/-- Takes the direction's mark off the end of a text. -/
def Direction.ofEnd (text : Text) : Text × Direction :=
  match text.getLast? with
  | some '+' => (text.dropLast, atLeast)
  | some '-' => (text.dropLast, atMost)
  | _ => (text, exact)

/-! ## Segments -/

/-- The parts of a version segment as written. -/
structure VersionSegment where
  major : Text
  minor : Text
  patch : Text
  direction : Direction
deriving DecidableEq

/-- Whether a text is a nonempty run of decimal digits. -/
def isDigitRun (text : Text) : Bool :=
  !text.isEmpty && text.all Unicode.isDecimalDigit

/-- The parts of a version segment: three runs of digits with dots between them, and at most one
mark at the end. -/
def VersionSegment.ofText? (text : Text) : Option VersionSegment :=
  match text.splitOn '.' with
  | [major, minor, final] =>
    let (patch, direction) := Direction.ofEnd final
    if isDigitRun major && isDigitRun minor && isDigitRun patch then
      some ⟨major, minor, patch, direction⟩
    else
      none
  | _ => none

/-- Whether a path segment is a version segment. -/
def isVersionSegment (segment : Text) : Bool :=
  (VersionSegment.ofText? segment).isSome

/-! ## Constraints -/

/-- A version and the direction in which others are acceptable too. -/
structure Constraint where
  version : Version
  direction : Direction
deriving DecidableEq, Repr

namespace Constraint

/-- Whether the constraint names exactly one version. -/
def isExact (constraint : Constraint) : Bool :=
  constraint.direction == .exact

/-- The versions that satisfy a constraint. -/
def Admits (constraint : Constraint) (v : Version) : Prop :=
  match constraint.direction with
  | .exact => v = constraint.version
  | .atLeast => constraint.version ≤ v
  | .atMost => v ≤ constraint.version

instance (constraint : Constraint) (v : Version) : Decidable (constraint.Admits v) := by
  unfold Admits
  split <;> infer_instance

/-- The constraint as it is written in a path. -/
def toText (constraint : Constraint) : Text :=
  constraint.version.toText ++ constraint.direction.mark

/-- The constraint a version segment denotes. -/
def ofText? (text : Text) : Option Constraint := do
  let segment ← VersionSegment.ofText? text
  let major ← Text.toUInt64? segment.major
  let minor ← Text.toUInt64? segment.minor
  let patch ← Text.toUInt64? segment.patch
  return ⟨⟨major, minor, patch⟩, segment.direction⟩

/-- The constraint a text denotes; any other text is refused as it stands. -/
def parse (text : Text) : Except CompileError Constraint :=
  match ofText? text with
  | none => .error (.invalidVersion text)
  | some constraint => .ok constraint

/-- A text is accepted when it denotes a constraint. -/
theorem parse_eq_ok_iff {text : Text} {constraint : Constraint} :
    parse text = .ok constraint ↔ ofText? text = some constraint := by
  unfold parse
  split <;> simp_all

/-- There is one reason to refuse a text. -/
theorem parse_eq_invalidVersion_iff {text : Text} :
    parse text = .error (.invalidVersion text) ↔ ¬ ∃ constraint, parse text = .ok constraint := by
  unfold parse
  split <;> simp

end Constraint

end ModuleCompiler
