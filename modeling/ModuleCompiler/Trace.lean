import ModuleCompiler.CompileError
import ModuleCompiler.Scope.Basic

/-!
# Traces

A trace is the chain of files being compiled, each imported by the one before, the entry first.
-/

namespace ModuleCompiler

/-- A file being compiled, with its scope. -/
structure Frame where
  pathname : Text
  scope : Scope
deriving DecidableEq

/-- The files being compiled, the entry first. -/
abbrev Trace := List Frame

namespace Trace

/-- The pathnames of the files. -/
def pathnames (trace : Trace) : List Text :=
  trace.map Frame.pathname

/-- Whether a file is being compiled. -/
def includes (trace : Trace) (pathname : Text) : Bool :=
  trace.pathnames.contains pathname

/-- The chain of files that leads back to `pathname`. -/
def cycleThrough (trace : Trace) (pathname : Text) : List Text :=
  trace.pathnames ++ [pathname]

/-- What each file declares for a package. -/
def sites (trace : Trace) (package : Text) : List ConstraintSite :=
  trace.map fun frame => ⟨frame.pathname, (frame.scope.versionFor package).map Constraint.toText⟩

/-- The constraints that the files declare for a package. -/
def ambient (trace : Trace) (package : Text) : List Constraint :=
  trace.filterMap fun frame => frame.scope.versionFor package

end Trace

end ModuleCompiler
