import ModuleCompiler.Text.Basic

/-!
# Errors

Everything that ends a compile, as its cause; `CompileError.message` gives each its wording.
-/

namespace ModuleCompiler

/-- What one file in a chain of importers declares for a version conflict. -/
structure ConstraintSite where
  pathname : Text
  constraint : Option Text
deriving DecidableEq

/-- The causes that end a compile. -/
inductive CompileError where
  /-- No file has this pathname. -/
  | notFound (pathname : Text)
  /-- The file exists and cannot be read. -/
  | unreadable (pathname cause : Text)
  /-- A package descriptor has not the required form. -/
  | malformedDescriptor (pathname : Text)
  /-- The last file of the list is already being compiled. -/
  | circularDependency (cycle : List Text)
  /-- No version satisfies what the chain of importers declares for the package. -/
  | versionConflict (package : Text) (chain : List ConstraintSite)
  /-- A version segment that denotes no version. -/
  | invalidVersion (segment : Text)
  /-- A relative reference that leaves the base directory. -/
  | outsideBase (reference pathname : Text)
  /-- The configuration file has not the required form. -/
  | malformedConfig (pathname : Text)
  /-- The configured base is not an absolute path. -/
  | relativeBase (base : Text)
  /-- The configured header callee is not an identifier. -/
  | badHeaderCallee (callee : Text)
  /-- The configured descriptor name is not a file name. -/
  | badDescriptorName (name : Text)
deriving DecidableEq

/-- One file of a conflict, with a star where it declares nothing. -/
def ConstraintSite.describe (site : ConstraintSite) : Text :=
  site.pathname ++ ("(" : Text) ++ site.constraint.getD ['*'] ++ (")" : Text)

/-- The wording of an error. -/
def CompileError.message : CompileError → Text
  | notFound pathname => ("Cannot find file '" : Text) ++ pathname ++ ("'" : Text)
  | unreadable pathname cause =>
    ("Failed to load '" : Text) ++ pathname ++ ("': " : Text) ++ cause
  | malformedDescriptor pathname =>
    ("Malformed package descriptor '" : Text) ++ pathname ++ ("'" : Text)
  | circularDependency cycle =>
    ("Circular dependencies found: " : Text) ++ Text.joined " -> " cycle
  | versionConflict package chain =>
    ("Version of \"" : Text) ++ package ++ ("\" conflicts: " : Text)
      ++ Text.joined " -> " (chain.map ConstraintSite.describe)
  | invalidVersion segment => ("Invalid version: " : Text) ++ segment
  | outsideBase reference pathname =>
    ("Reference '" : Text) ++ reference ++ ("' in '" : Text) ++ pathname
      ++ ("' resolves outside the base" : Text)
  | malformedConfig pathname =>
    ("Configuration error: " : Text) ++ pathname ++ (": not a valid configuration" : Text)
  | relativeBase base =>
    ("Configuration error: base must be an absolute path, got '" : Text) ++ base ++ ("'" : Text)
  | badHeaderCallee callee =>
    ("Configuration error: header callee must be an identifier, got '" : Text) ++ callee
      ++ ("'" : Text)
  | badDescriptorName name =>
    ("Configuration error: descriptor name must be a file name, got '" : Text) ++ name
      ++ ("'" : Text)

end ModuleCompiler
