import ModuleCompiler.CompileError
import ModuleCompiler.Path.Basic
import ModuleCompiler.Version.Constraint

/-!
# Versioned paths

A path is versioned when one of its segments, not the first, is a version segment. The first such
segment divides it into the package before and the rest behind.

A path that ends in its version segment means the file named after the package
(`expandVersioned`). A pathname with something behind the segment is a file inside the package, a
`VersionedPath`, and `VersionedPath.pinned` is the same file in a given version of it.
-/

namespace ModuleCompiler

/-- The segments before the first version segment, that segment, and those behind it. The first
segment of a path has no slash before it and never counts. -/
def splitAtVersion? : List Text → Option (List Text × Text × List Text)
  | [] => none
  | first :: rest =>
    match rest.dropWhile (!isVersionSegment ·) with
    | [] => none
    | segment :: after => some (first :: rest.takeWhile (!isVersionSegment ·), segment, after)

/-- Completes a path that ends in its version segment, or in a slash behind it, by the name of the
package: `lib/jquery/1.7.2` becomes `lib/jquery/1.7.2/jquery`. A path with a line break is never
completed. -/
def expandVersioned (path : Text) : Text :=
  if '\n' ∈ path then path
  else
    match splitAtVersion? (Path.segments path) with
    | none => path
    | some (before, segment, after) =>
      if after = [] ∨ after = [[]] then
        Path.ofSegments (before ++ [segment, before.getLastD []])
      else
        path

/-- A pathname inside a versioned package. -/
structure VersionedPath where
  /-- The pathname of the package, without version. -/
  package : Text
  /-- What the version segment asks for. -/
  constraint : Constraint
  /-- The path inside the package. -/
  inner : Text
deriving DecidableEq

namespace VersionedPath

/-- Divides a pathname at its first version segment that has a slash behind it. A pathname without
such a segment, or with a line break, is not versioned. -/
def parse (pathname : Text) : Except CompileError (Option VersionedPath) :=
  if '\n' ∈ pathname then .ok none
  else
    match splitAtVersion? (Path.segments pathname) with
    | none => .ok none
    | some (_, _, []) => .ok none
    | some (before, segment, after) => do
      let constraint ← Constraint.parse segment
      return some ⟨Path.ofSegments before, constraint, Path.ofSegments after⟩

/-- The file in the given version of its package. -/
def pinned (path : VersionedPath) (version : Version) : Text :=
  path.package ++ '/' :: version.toText ++ '/' :: path.inner

end VersionedPath

end ModuleCompiler
