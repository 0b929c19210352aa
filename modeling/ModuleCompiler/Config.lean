import ModuleCompiler.CompileError
import ModuleCompiler.Json.Basic

/-!
# Configuration

The settings of a compiler. `Config.ofText?` reads them from a JSON record, where each may be
missing; `Config.validate` checks them and completes the base by a slash. `Config.Valid` says what a
compiler relies on: the check answers only valid settings (`valid_of_validate`) and changes nothing
but the base (`eq_of_validate`).
-/

namespace ModuleCompiler

/-- The settings of a compiler. -/
structure Config where
  /-- The directory that canonical ids start from. -/
  base : Text := "/"
  /-- The function whose call declares a module. -/
  headerCallee : Text := "define"
  /-- What is appended to the id of a dependency; may hold the place of its pathname. -/
  stampTemplate : Text := "?t=#ts(\"\x7bpathname\x7d\")"
  /-- The file name of package descriptors. -/
  descriptorName : Text := "package.json"
deriving DecidableEq

namespace Config

/-- The settings used where nothing else is given. -/
def standard : Config := {}

/-- The place in a stamp template where the pathname goes. -/
def pathnamePlace : Text := "\x7bpathname\x7d"

/-- The stamp of a pathname. -/
def stamp (config : Config) (pathname : Text) : Text :=
  Text.replaceAll pathnamePlace pathname config.stampTemplate

/-! ## Reading -/

/-- A field that may be missing. -/
def field? (default : Text) : Option Json → Option Text
  | none => some default
  | some value => value.text?

/-- The settings of a configuration file. -/
def ofText? (text : Text) : Option Config := do
  let json ← Json.parse? text
  match ← json.fields? ["base", "headerCallee", "stampTemplate", "descriptorName"] with
  | [base, callee, template, descriptor] =>
    return {
      base := ← field? standard.base base
      headerCallee := ← field? standard.headerCallee callee
      stampTemplate := ← field? standard.stampTemplate template
      descriptorName := ← field? standard.descriptorName descriptor }
  | _ => none

/-! ## Validation -/

/-- Whether a character may stand in a callee. -/
def isCalleeCharacter (c : Char) : Bool :=
  c.isAlphanum || c == '_' || c == '$'

/-- What a compiler relies on. -/
structure Valid (config : Config) : Prop where
  base_absolute : config.base.head? = some '/'
  base_directory : config.base.getLast? = some '/'
  headerCallee_nonempty : config.headerCallee ≠ []
  headerCallee_identifier : ∀ c ∈ config.headerCallee, isCalleeCharacter c = true
  descriptorName_nonempty : config.descriptorName ≠ []
  descriptorName_plain : '/' ∉ config.descriptorName

/-- The base with a slash at its end. -/
def completedBase (base : Text) : Text :=
  if base.getLast? = some '/' then base else base ++ ['/']

/-- Checks the settings, the base first and the descriptor name last. -/
def validate (config : Config) : Except CompileError Config :=
  if config.base.head? ≠ some '/' then
    .error (.relativeBase config.base)
  else if config.headerCallee = [] ∨ ¬ config.headerCallee.all isCalleeCharacter then
    .error (.badHeaderCallee config.headerCallee)
  else if config.descriptorName = [] ∨ '/' ∈ config.descriptorName then
    .error (.badDescriptorName config.descriptorName)
  else
    .ok { config with base := completedBase config.base }

/-- Completing a base leaves its first character. -/
theorem head?_completedBase {base : Text} (h : base.head? = some '/') :
    (completedBase base).head? = some '/' := by
  unfold completedBase
  split
  · exact h
  · simp [List.head?_append, h]

/-- A completed base ends in a slash. -/
theorem getLast?_completedBase (base : Text) : (completedBase base).getLast? = some '/' := by
  unfold completedBase
  split
  · assumption
  · simp

/-- Settings that pass the check are valid. -/
theorem valid_of_validate {config checked : Config} (h : config.validate = .ok checked) :
    checked.Valid := by
  -- each check that is passed gives the fields it is about
  unfold validate at h
  split at h
  · simp at h
  · rename_i hbase
    split at h
    · simp at h
    · rename_i hcallee
      split at h
      · simp at h
      · rename_i hname
        obtain rfl := Except.ok.inj h
        simp only [ne_eq, Decidable.not_not, not_or] at hbase hcallee hname
        exact {
          base_absolute := head?_completedBase hbase
          base_directory := getLast?_completedBase _
          headerCallee_nonempty := hcallee.1
          headerCallee_identifier := List.all_eq_true.1 hcallee.2
          descriptorName_nonempty := hname.1
          descriptorName_plain := hname.2 }

/-- Checking settings only completes their base. -/
theorem eq_of_validate {config checked : Config} (h : config.validate = .ok checked) :
    checked = { config with base := completedBase config.base } := by
  unfold validate at h
  split at h
  · simp at h
  · split at h
    · simp at h
    · split at h
      · simp at h
      · exact (Except.ok.inj h).symm

end Config

end ModuleCompiler
