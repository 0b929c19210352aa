import ModuleCompiler.ModuleId
import ModuleCompiler.Scope.Basic
import ModuleCompiler.Script.Call
import ModuleCompiler.Script.Splice

/-!
# Settling references

An id in a source may depend on the file: it may start with a name that only its scope explains, or
be relative to its directory. Settling brings all ids of a source into a form that does not, first
by `expandAlias`, which replaces the name an id starts with, and then by reading the id as written
in its file.
-/

namespace ModuleCompiler.Script

/-- The id with its first segment replaced by what that stands for. -/
def expandAlias (scope : Scope) (id : Text) : Text :=
  match Text.cut? '/' id with
  | some (name, rest) =>
    match scope.aliasFor name with
    | some path => path ++ '/' :: rest
    | none => id
  | none => (scope.aliasFor id).getD id

/-- What an id in the file at `pathname` stands for. Canonical ids and the absent id have no
alias. -/
def settleId (scope : Scope) (base pathname id : Text) : Except CompileError Text :=
  if id = ModuleId.absent ∨ ModuleId.isCanonical id then .ok id
  else ModuleId.ofReference base pathname (expandAlias scope id)

/-- A settled id, with the call it stands in. -/
structure Reference where
  kind : CallKind
  id : Text
deriving DecidableEq

/-- A source whose ids are settled. -/
structure SettledSource where
  source : Text
  references : List Reference
deriving DecidableEq

/-- The ids required, in order and with repetitions. -/
def SettledSource.requiredIds (settled : SettledSource) : List Text :=
  (settled.references.filter (·.kind.isSync)).map Reference.id

/-- The edit that puts `id` in place of an id found, unless they are the same. -/
def IdSpan.edit? (found : IdSpan) (id : Text) : Option Edit :=
  if id = found.id then none else some ⟨found.start, found.stop, id⟩

/-- Settles all ids in the source of the file at `pathname`; the first that fails decides. -/
def settle (scope : Scope) (base pathname source : Text) : Except CompileError SettledSource := do
  let found := scan source
  let ids ← found.mapM fun span => settleId scope base pathname span.id
  let edits := (found.zip ids).filterMap fun (span, id) => span.edit? id
  let references := (found.zip ids).map fun (span, id) => ⟨span.kind, id⟩
  return ⟨splice source edits, references⟩

end ModuleCompiler.Script
