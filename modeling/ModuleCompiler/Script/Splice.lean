import ModuleCompiler.Text.Basic

/-!
# Splicing

An edit replaces the bytes of a span by a text. `splice` applies edits whose spans do not overlap,
whatever their order; edits that start at the same byte keep theirs.
-/

namespace ModuleCompiler.Script

/-- A text to put in place of the bytes from `start` to `stop`. -/
structure Edit where
  start : Nat
  stop : Nat
  text : Text
deriving DecidableEq

/-- Puts an edit before the first one that does not start before it. -/
def insertEdit (edit : Edit) : List Edit → List Edit
  | [] => [edit]
  | next :: rest =>
    if edit.start ≤ next.start then edit :: next :: rest else next :: insertEdit edit rest

/-- The edits by the byte they start at; those with the same start keep their order. -/
def inOrder (edits : List Edit) : List Edit :=
  edits.foldr insertEdit []

/-- Applies edits in order, where `rest` is the source from byte `offset` on. -/
def spliceFrom (offset : Nat) (rest : Text) : List Edit → Text
  | [] => rest
  | edit :: edits =>
    Text.takeBytes (edit.start - offset) rest ++ edit.text
      ++ spliceFrom edit.stop (Text.dropBytes (edit.stop - offset) rest) edits

/-- The source with each span replaced by its text. -/
def splice (source : Text) (edits : List Edit) : Text :=
  spliceFrom 0 source (inOrder edits)

end ModuleCompiler.Script
