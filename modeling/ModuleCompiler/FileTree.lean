import ModuleCompiler.Loader
import ModuleCompiler.Path.Basic

/-!
# File trees

The files of a system as a program sees them. Paths start at the working directory, or with a slash
at the root, and are followed segment by segment (`walk`): every segment but the last has to lead to
a directory, and `..` goes up, where the root is its own parent. A `PathFault` says why a path may
lead nowhere. Files are read by `read`, and by the `loader` of a directory; `createDirectories` and
`write` change the tree.
-/

namespace ModuleCompiler

/-- What a file holds. -/
inductive Content where
  | text (text : Text)
  /-- Bytes that are not UTF-8. -/
  | binary
deriving DecidableEq

/-- Files and directories, by the names that lead to them from the root. -/
structure FileTree where
  /-- The working directory. -/
  home : List Text
  files : List (List Text × Content)
  /-- Directories that may hold no file. -/
  directories : List (List Text)
deriving DecidableEq

/-- Why a path cannot be used. -/
inductive PathFault where
  | missing
  | throughFile
  | isDirectory
  | fileExists
  | nameTooLong
  | nulCharacter
  | notUtf8
deriving DecidableEq, Repr

/-- The wording of a fault. -/
def PathFault.message : PathFault → Text
  | missing => "No such file or directory (os error 2)"
  | throughFile => "Not a directory (os error 20)"
  | isDirectory => "Is a directory (os error 21)"
  | fileExists => "File exists (os error 17)"
  | nameTooLong => "File name too long (os error 36)"
  | nulCharacter => "file name contained an unexpected NUL byte"
  | notUtf8 => "stream did not contain valid UTF-8"

namespace FileTree

/-- The content of a file. -/
def content? (tree : FileTree) (names : List Text) : Option Content :=
  tree.files.lookup names

/-- Whether names lead to a directory: the working directory, one that was created, or one above
these or above a file. -/
def isDirectory (tree : FileTree) (names : List Text) : Bool :=
  names.isPrefixOf tree.home || tree.directories.any names.isPrefixOf
    || tree.files.any fun (file, _) => names.isPrefixOf file && names != file

/-- The names in a path, from the working directory down. -/
def namesOf (tree : FileTree) (path : Text) : List Text :=
  tree.home ++ (Path.segments path).filter fun name => name ≠ [] ∧ name ≠ ['.']

/-- The tree with a file that holds `content`. -/
def put (tree : FileTree) (names : List Text) (content : Content) : FileTree :=
  { tree with files := (names, content) :: tree.files.filter fun (other, _) => other ≠ names }

/-- The tree of the given files below the working directory. -/
def ofFiles (home : List Text) (files : List (Text × Content)) : FileTree :=
  files.foldl (fun tree (path, content) => tree.put (tree.namesOf path) content) ⟨home, [], []⟩

/-! ## Paths -/

/-- The longest name a file system stores, in bytes. -/
def nameLimit : Nat := 255

/-- The shortest path that is too long to be used, in bytes. -/
def pathLimit : Nat := 4096

/-- Follows a path from a place in the tree. -/
def walk (tree : FileTree) (place : List Text) : List Text → Except PathFault (List Text)
  | [] => .ok place
  | name :: rest =>
    if !tree.isDirectory place then .error .throughFile
    else if name = [] ∨ name = ['.'] then tree.walk place rest
    else if name = ['.', '.'] then tree.walk place.dropLast rest
    else if nameLimit < Text.byteLength name then .error .nameTooLong
    else
      let inner := place ++ [name]
      if (tree.content? inner).isSome || tree.isDirectory inner then tree.walk inner rest
      else .error .missing

/-- Where a path starts, and its segments, unless it can name no file at all. -/
def start (tree : FileTree) (path : Text) : Except PathFault (List Text × List Text) :=
  if '\x00' ∈ path then .error .nulCharacter
  else if path = [] then .error .missing
  else if pathLimit ≤ Text.byteLength path then .error .nameTooLong
  else .ok (if Path.isAbsolute path then [] else tree.home, Path.segments path)

/-! ## Reading -/

/-- The text of the file at a path. -/
def read (tree : FileTree) (path : Text) : Except PathFault Text := do
  let (place, segments) ← tree.start path
  match tree.content? (← tree.walk place segments) with
  | some (.text text) => .ok text
  | some .binary => .error .notUtf8
  | none => .error .isDirectory

/-- A path below a directory. An absolute path stands for itself. -/
def joinPath (dir path : Text) : Text :=
  if Path.isAbsolute path ∨ dir = [] then path
  else if Path.endsInSlash dir then dir ++ path
  else dir ++ '/' :: path

/-- What a loader answers for the file at a path. -/
def reading (tree : FileTree) (path : Text) : Reading :=
  match tree.read path with
  | .ok text => .text text
  | .error .missing => .missing
  | .error fault => .failed fault.message

/-- The path that a loader with the given root reads for a pathname. -/
def locate (root pathname : Text) : Text :=
  joinPath root (Text.dropLeading '/' pathname)

/-- The ways to name a file from some directory above it, with and without a slash at the start. -/
def pathnamesOf : List Text → List Text
  | [] => []
  | name :: rest =>
    let path := Path.ofSegments (name :: rest)
    path :: ('/' :: path) :: pathnamesOf rest

/-- The loader of the files below `root`. -/
def loader (tree : FileTree) (root : Text) : Loader where
  read _ pathname := tree.reading (locate root pathname)
  pathnames := tree.files.flatMap fun (names, _) => pathnamesOf names

/-! ## Writing -/

/-- Creates the directories on a path that do not exist yet, and answers where it leads. -/
def createFrom (tree : FileTree) (place : List Text) :
    List Text → Except PathFault (FileTree × List Text)
  | [] => .ok (tree, place)
  | name :: rest =>
    if name = [] ∨ name = ['.'] then tree.createFrom place rest
    else if name = ['.', '.'] then tree.createFrom place.dropLast rest
    else if nameLimit < Text.byteLength name then .error .nameTooLong
    else
      let inner := place ++ [name]
      if (tree.content? inner).isSome then .error .fileExists
      else if tree.isDirectory inner then tree.createFrom inner rest
      else createFrom { tree with directories := inner :: tree.directories } inner rest

/-- Makes a path a directory, together with those above it, and answers where it leads. -/
def createDirectories (tree : FileTree) (path : Text) :
    Except PathFault (FileTree × List Text) := do
  let (place, segments) ← tree.start path
  match tree.walk place segments with
  | .ok found => if tree.isDirectory found then .ok (tree, found) else .error .fileExists
  -- directories are created only where the path leads nowhere yet
  | .error .missing => tree.createFrom place segments
  | .error fault => .error fault

/-- Writes a file into a directory. -/
def writeIn (tree : FileTree) (place : List Text) (name text : Text) :
    Except PathFault FileTree :=
  if name = [] ∨ name = ['.'] ∨ name = ['.', '.'] then .error .isDirectory
  else if nameLimit < Text.byteLength name then .error .nameTooLong
  else
    let inner := place ++ [name]
    if tree.isDirectory inner then .error .isDirectory else .ok (tree.put inner (.text text))

/-- Writes a file at a path, creating the directories it needs. These come first: a path that is too
long for the file may still be short enough for its directory. -/
def write (tree : FileTree) (path text : Text) : Except PathFault FileTree := do
  let (tree, found) ← tree.createDirectories (Path.container path)
  let (_, segments) ← tree.start path
  tree.writeIn found (segments.getLastD []) text

end FileTree

end ModuleCompiler
