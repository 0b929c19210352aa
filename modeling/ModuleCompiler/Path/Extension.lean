import ModuleCompiler.Text.Basic
import ModuleCompiler.Unicode.WordCharacter

/-!
# Extensions

The extension of a path is its last dot and what follows, when that is an ASCII letter and then
only word characters. So `style.css` has one, while `jquery-1.7` and `lib.d/file` have none.
-/

namespace ModuleCompiler.Path

open Unicode

/-- Whether the text behind a dot makes an extension. -/
def isExtensionName : Text → Bool
  | [] => false
  | c :: rest => c.isAlpha && rest.all isWordCharacter

/-- The path before its last dot and the text behind that dot, when it makes an extension. -/
def splitExtension? (path : Text) : Option (Text × Text) :=
  -- the last dot is the first one from behind
  match path.reverse.dropWhile (· != '.') with
  | [] => none
  | _ :: stem =>
    let name := (path.reverse.takeWhile (· != '.')).reverse
    if isExtensionName name then some (stem.reverse, name) else none

/-- Whether a path has an extension. -/
def hasExtension (path : Text) : Bool :=
  (splitExtension? path).isSome

/-- The path without its extension. -/
def dropExtension (path : Text) : Text :=
  match splitExtension? path with
  | some (stem, _) => stem
  | none => path

end ModuleCompiler.Path
