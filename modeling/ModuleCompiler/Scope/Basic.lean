import ModuleCompiler.Table
import ModuleCompiler.Version.Constraint

/-!
# Package scopes

Every file belongs to the scope of the nearest package descriptor above it. The scope says what
short names stand for, and which versions of other packages its files accept.
-/

namespace ModuleCompiler

/-- What a package descriptor declares for the files below it. -/
structure Scope where
  /-- What each name stands for. -/
  aliases : Table Text
  /-- The constraint on each package, by the pathname of the package without version. -/
  versions : Table Constraint
  /-- The pathname of the descriptor. -/
  origin : Option Text
deriving DecidableEq

namespace Scope

/-- The scope of files without a descriptor. -/
def empty : Scope :=
  ⟨.empty, .empty, none⟩

instance : Inhabited Scope := ⟨empty⟩

/-- What a name stands for. -/
def aliasFor (scope : Scope) (name : Text) : Option Text :=
  scope.aliases.get? name

/-- The constraint on a package. -/
def versionFor (scope : Scope) (package : Text) : Option Constraint :=
  scope.versions.get? package

/-- Whether the scope declares nothing. -/
def isEmpty (scope : Scope) : Bool :=
  scope.aliases.isEmpty && scope.versions.isEmpty

end Scope

end ModuleCompiler
