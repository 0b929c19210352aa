import ModuleCompiler.Trace
import ModuleCompiler.Version.Interval
import ModuleCompiler.Version.Versioned

/-!
# Version resolution

Every file of a trace may constrain the version of a package. `resolveVersion` settles which
version a pathname inside the package means: the constraints must leave some version; a request for
an exact version is granted; any other request takes the version that the nearest file pins, and is
left open when no file pins one.
-/

namespace ModuleCompiler

/-- The version pinned last. -/
def nearestPin? (constraints : List Constraint) : Option Version :=
  (constraints.reverse.find? Constraint.isExact).map Constraint.version

/-- The pathname to load for `pathname`, or `none` when its version stays open. A pathname outside
versioned packages stands for itself. -/
def resolveVersion (pathname : Text) (trace : Trace) : Except CompileError (Option Text) :=
  match VersionedPath.parse pathname with
  | .error error => .error error
  | .ok none => .ok (some pathname)
  | .ok (some path) =>
    let ambient := trace.ambient path.package
    if (Interval.intersectAll? ambient).isNone then
      .error (.versionConflict path.package (trace.sites path.package))
    else if path.constraint.isExact then
      .ok (some (path.pinned path.constraint.version))
    else
      .ok ((nearestPin? ambient).map path.pinned)

end ModuleCompiler
