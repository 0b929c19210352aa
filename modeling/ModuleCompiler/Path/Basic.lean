import ModuleCompiler.Text.Basic

/-!
# Paths

A path is a text whose segments are separated by slashes. A pathname names a file, a directory is
written with a slash at its end.

`normalize` collapses the segments that do not name anything: empty ones, `.` and `..`. From a file,
`directory`, `container`, `parent?` and `ancestors` climb to the root, and `resolve` finds the path
that a reference written in the file denotes.
-/

namespace ModuleCompiler.Path

/-- The pieces of a path between its slashes. -/
def segments (path : Text) : List Text :=
  path.splitOn '/'

/-- The path with the given pieces between its slashes. -/
def ofSegments (segments : List Text) : Text :=
  Text.joined ['/'] segments

/-- Cutting a path at its slashes loses nothing. -/
theorem ofSegments_segments (path : Text) : ofSegments (segments path) = path :=
  List.intercalate_splitOn '/'

/-- Whether a path starts at the root. -/
def isAbsolute (path : Text) : Bool :=
  path.head? == some '/'

/-- Whether a path ends in a slash. -/
def endsInSlash (path : Text) : Bool :=
  path.getLast? == some '/'

/-! ## Normal form -/

/-- Adds one segment to the segments kept so far, the last of them first. A `..` takes back the
segment before it; with nothing to take back it is dropped at the root and kept in a relative
path. -/
def collapseStep (absolute : Bool) (kept : List Text) (segment : Text) : List Text :=
  if segment = [] ∨ segment = ['.'] then
    kept
  else if segment = ['.', '.'] then
    -- nothing in front of a kept `..` can be taken back, so another one is kept behind it
    match kept with
    | [] => if absolute then [] else [segment]
    | last :: before =>
      if last = ['.', '.'] then (if absolute then kept else segment :: kept) else before
  else
    segment :: kept

/-- The segments that remain after collapsing. -/
def collapse (absolute : Bool) (segments : List Text) : List Text :=
  (segments.foldl (collapseStep absolute) []).reverse

/-- The path without empty, `.` and collapsible `..` segments. A slash at the start survives, and
so does one at the end unless nothing is left before it. -/
def normalize (path : Text) : Text :=
  let body := ofSegments (collapse (isAbsolute path) (segments path))
  let trailing := endsInSlash path && path.length != 1 && !body.isEmpty
  (if isAbsolute path then ['/'] else []) ++ body ++ (if trailing then ['/'] else [])

/-! ## Directories -/

/-- The directory of a pathname, up to and including its last slash. -/
def directory (pathname : Text) : Text :=
  match (pathname.reverse.dropWhile (· != '/')).reverse with
  | [] => "./"
  | dir => dir

/-- The directory that holds what a path names, without a slash at its end unless it is the root.
Segments at its end that name nothing are left out, so its last segment names the directory itself
and not a way through it. -/
def container (path : Text) : Text :=
  let blank (segment : Text) : Bool := segment = [] ∨ segment = ['.']
  match ((segments path).dropLast.reverse.dropWhile blank).reverse with
  | [] => if isAbsolute path then ['/'] else ['.']
  | kept => ofSegments kept

/-- The directory above an absolute directory. The root has none, and neither has a relative
directory, where climbing would never end. -/
def parent? (dir : Text) : Option Text :=
  if dir = ['/'] ∨ !isAbsolute dir then none
  -- climbing is left to the normal form, which takes the last name back
  else some (normalize (Text.dropTrailing '/' dir ++ ("/../" : Text)))

/-- A directory and at most `steps` directories above it, the deepest first. -/
def ancestorsWithin : Nat → Text → List Text
  | 0, dir => [dir]
  | steps + 1, dir =>
    match parent? dir with
    | none => [dir]
    | some parent => dir :: ancestorsWithin steps parent

/-- A directory and all directories above it, the deepest first. A directory has fewer
directories above it than it has segments. -/
def ancestors (dir : Text) : List Text :=
  ancestorsWithin (segments dir).length dir

/-! ## References -/

/-- The path that `reference` denotes in the file `referrer`: absolute references stand for
themselves, all others start in the directory of the file. -/
def resolve (referrer reference : Text) : Text :=
  if isAbsolute reference then normalize reference
  else normalize (directory referrer ++ reference)

end ModuleCompiler.Path
