import ModuleCompiler.Path.Extension
import ModuleCompiler.Version.Versioned

/-!
# Module ids

Program text refers to a module by its id: `$` for no module at all, `#` and a path below the base
directory for a canonical id, a plain name, or a path relative to the referring file.

`canonical` brings an id into the form in which it names one file, `toPathname` and `ofPathname` go
between canonical ids and pathnames, and `ofReference` reads an id as written in a file. A pathname
that was found for a range of versions keeps the marks of the range; `withoutRanges` takes them off.
-/

namespace ModuleCompiler.ModuleId

/-- The mark of canonical ids. -/
def marker : Char := '#'

/-- The id that stands for no module. -/
def absent : Text := ['$']

/-- Whether an id is canonical. -/
def isCanonical (id : Text) : Bool :=
  id.head? == some marker

/-- Whether an id is relative to the file it is written in. -/
def isRelative (id : Text) : Bool :=
  id.head? == some '.'

/-- The id without its query, which starts at the first question mark. -/
def stripQuery (id : Text) : Text :=
  id.takeWhile (· != '?')

/-- The id without the marker of canonical ids. -/
def body (id : Text) : Text :=
  if isCanonical id then id.tail else id

/-! ## Canonical ids -/

/-- The path with the extension that modules have by default, unless it has one or names a
directory. -/
def withDefaultExtension (path : Text) : Text :=
  if path.isEmpty || Path.endsInSlash path || Path.hasExtension path then path
  else path ++ (".js" : Text)

/-- The canonical form of an id: without query, with versioned directories and the default
extension completed, and normalized. A `#` at the end keeps the path as it is; it stays in the
canonical form where the path has no extension. -/
def canonical (id : Text) : Text :=
  let path := stripQuery (body id)
  match Text.dropFinal? marker path with
  | some kept =>
    let kept := Path.normalize kept
    if Path.hasExtension kept then marker :: kept else marker :: kept ++ [marker]
  | none => marker :: Path.normalize (withDefaultExtension (expandVersioned path))

/-- The pathname below `base` of a canonical id. Other ids are left alone. -/
def toPathname (base id : Text) : Text :=
  if isCanonical id then
    let path := (canonical id).tail
    Path.normalize (base ++ (Text.dropFinal? marker path).getD path)
  else
    id

/-- The id that the module at `pathname` declares: its path below `base`, without extension. -/
def ofPathname (base pathname : Text) : Text :=
  marker :: Path.dropExtension ((Text.dropStart? base pathname).getD pathname)

/-- The id that `reference` stands for in the file `referrer`. Relative references must stay below
`base`; no extension is added. -/
def ofReference (base referrer reference : Text) : Except CompileError Text :=
  if reference = absent ∨ isCanonical reference then
    .ok reference
  else if isRelative reference then
    match Text.dropStart? base (Path.resolve referrer reference) with
    | some path => .ok (marker :: expandVersioned path)
    | none => .error (.outsideBase reference referrer)
  else
    .ok (marker :: expandVersioned reference)

/-! ## Range marks -/

/-- What follows the run of decimal digits a text starts with. -/
def afterDigits? (text : Text) : Option Text :=
  match text with
  | [] => none
  | c :: rest =>
    if Unicode.isDecimalDigit c then some (rest.dropWhile Unicode.isDecimalDigit) else none

/-- What follows the dot a text starts with. -/
def afterDot? : Text → Option Text
  | '.' :: rest => some rest
  | _ => none

/-- The length of the version at the start of a text that has a range mark behind it. -/
def rangedVersionLength? (text : Text) : Option Nat := do
  let minor ← afterDot? (← afterDigits? text)
  let patch ← afterDot? (← afterDigits? minor)
  match ← afterDigits? patch with
  | '+' :: rest => some (text.length - (rest.length + 1))
  | '-' :: rest => some (text.length - (rest.length + 1))
  | _ => none

/-- Walks a pathname; `pending` characters are left of a ranged version, its mark included. -/
def withoutRangesFrom : Nat → Text → Text
  | _, [] => []
  | 1, _ :: rest => withoutRangesFrom 0 rest
  | pending + 2, c :: rest => c :: withoutRangesFrom (pending + 1) rest
  | 0, c :: rest => c :: withoutRangesFrom ((rangedVersionLength? (c :: rest)).getD 0) rest

/-- The pathname with the mark taken off every version that has one behind it. -/
def withoutRanges (pathname : Text) : Text :=
  withoutRangesFrom 0 pathname

end ModuleCompiler.ModuleId
