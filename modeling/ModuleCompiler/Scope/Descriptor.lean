import ModuleCompiler.Json.Basic
import ModuleCompiler.ModuleId
import ModuleCompiler.Scope.Basic

/-!
# Package descriptors

A descriptor is a JSON record whose field `alias` names paths. A path with a version segment also
constrains the version of its package, for all files of the scope: `declaredVersion?` finds the
version in one path, `declaredVersions` those of all.
-/

namespace ModuleCompiler

/-- The names that a descriptor declares. The field may be missing or `null`. -/
def aliasesOfDescriptor? (text : Text) : Option (Table Text) := do
  let json ← Json.parse? text
  match ← json.fields? ["alias"] with
  | [none] => some .empty
  | [some .null] => some .empty
  | [some value] => value.table?.map Table.ofList
  | _ => none

/-- The path before the first version segment of an alias, and that segment. There is none behind
a line break. -/
def declaredVersion? (path : Text) : Option (Text × Text) :=
  match splitAtVersion? (Path.segments (ModuleId.body path)) with
  | none => none
  | some (before, segment, _) =>
    let package := Path.ofSegments before
    if '\n' ∈ package then none else some (package, segment)

/-- The constraints that paths declare for packages below `base`; of several on one package the
last counts. -/
def declaredVersions (base : Text) (paths : List Text) : Except CompileError (Table Constraint) :=
  paths.foldlM
    (fun versions path =>
      match declaredVersion? path with
      | none => .ok versions
      | some (package, segment) => do
        let constraint ← Constraint.parse segment
        return versions.insert (base ++ package) constraint)
    .empty

/-- The scope that the descriptor at `pathname` declares. The versions follow the order of the
names. -/
def Scope.ofDescriptor (base pathname text : Text) : Except CompileError Scope :=
  match aliasesOfDescriptor? text with
  | none => .error (.malformedDescriptor pathname)
  | some aliases => do
    let versions ← declaredVersions base aliases.values
    return ⟨aliases, versions, some pathname⟩

end ModuleCompiler
