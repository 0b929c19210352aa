import ModuleCompiler.Output
import ModuleCompiler.Proofs.Path.Extension
import ModuleCompiler.Proofs.Script.HeaderReplacement

/-!
# Declaring a file again

A source that declares its file can be given to the compiler again, and its header is replaced by
the same one. The first header of the output is not always the one that was written: it ends at the
first keyword, and a file whose name has the keyword brings one into the list.

What a header lists are ids made of pathnames, so the conditions on texts that
`Proofs.Script.HeaderReplacement` needs can be asked of the pathnames: `Listable` is kept by pieces
of a text and by the marker in front (`listable_listedDependency`). With them,
`declaredSource_declaredSource_iff` says that a header that stands apart is replaced by itself
exactly if no listed id has the keyword, and `declaredSource_functionalFile` shows a file where one
has.
-/

namespace ModuleCompiler

/-! ## Ids in a header -/

/-- A path starts with what is left of it without its extension. -/
theorem Path.dropExtension_prefix (path : Text) : Path.dropExtension path <+: path := by
  rw [Path.dropExtension]
  split
  · rename_i stem name hsplit
    rw [(Path.splitExtension?_eq_some_iff.1 hsplit).1]
    exact List.prefix_append _ _
  · exact List.prefix_refl path

/-- The id that a module declares has a piece of its pathname behind the marker. -/
theorem ModuleId.exists_ofPathname_eq (base pathname : Text) :
    ∃ path, ModuleId.ofPathname base pathname = ModuleId.marker :: path ∧ path <:+: pathname := by
  refine ⟨_, rfl, (Path.dropExtension_prefix _).isInfix.trans ?_⟩
  rcases hdrop : Text.dropStart? base pathname with _ | inner
  · exact List.infix_refl pathname
  · rw [← List.isPrefixOf?_eq_some_iff_append_eq.1 hdrop]
    exact (List.suffix_append base inner).isInfix

namespace Script.Listable

variable {text piece : Text}

/-- A piece of a text that can be listed can be listed. -/
theorem of_infix (h : Listable text) (hpiece : piece <:+: text) : Listable piece where
  quote_not_mem hmem := h.quote_not_mem (hpiece.subset hmem)
  escape_not_mem hmem := h.escape_not_mem (hpiece.subset hmem)
  line_not_mem hmem := h.line_not_mem (hpiece.subset hmem)
  no_mark hmark := h.no_mark (hmark.trans hpiece)

/-- The marker in front of an id does not keep it from being listed. -/
theorem marker_cons (h : Listable text) : Listable (ModuleId.marker :: text) where
  quote_not_mem := by simpa [ModuleId.marker] using h.quote_not_mem
  escape_not_mem := by simpa [ModuleId.marker] using h.escape_not_mem
  line_not_mem := by simpa [ModuleId.marker] using h.line_not_mem
  no_mark hmark := h.no_mark
    ((infix_cons_iff_of_not_mem (by decide) (List.cons_ne_nil _ _)).1 hmark)

end Script.Listable

namespace Output

open Script

variable {config : Config} {file : CompiledFile}

/-- Without stamps, what can be listed of a pathname can be listed of its id. -/
theorem listable_listedDependency (htemplate : config.stampTemplate = []) {pathname : Text}
    (h : Listable pathname) : Listable (listedDependency config pathname) := by
  have hstamp : config.stamp (ModuleId.withoutRanges pathname) = [] := by
    rw [Config.stamp, htemplate]
    rfl
  obtain ⟨path, hpath, hfound⟩ := ModuleId.exists_ofPathname_eq config.base pathname
  rw [listedDependency, hstamp, List.append_nil, hpath]
  exact (h.of_infix hfound).marker_cons

/-- The ids in the header of a file, its own first. -/
def headerIds (config : Config) (file : CompiledFile) : List Text :=
  file.id :: file.flattened.map (listedDependency config)

/-- Take valid settings without stamps, and a file whose id and whose pathnames to load can be
listed. Where the first header of a source stands apart, declaring the file in it a second time
changes nothing exactly if there is no header or no id in it has the keyword. -/
theorem declaredSource_declaredSource_iff (hvalid : config.Valid)
    (htemplate : config.stampTemplate = [])
    (hlistable : ∀ text ∈ file.id :: file.flattened, Listable text) {source : Text}
    (hsource : HeaderApart config.headerCallee source) :
    declaredSource config file (declaredSource config file source) =
        declaredSource config file source ↔
      (headerSpan? config.headerCallee source ≠ none →
        ∀ id ∈ headerIds config file, ¬ ("function" : Text) <:+: id) := by
  obtain ⟨hid, hflattened⟩ := List.forall_mem_cons.1 hlistable
  refine replaceHeader_replaceHeader_iff hvalid.isCallee (List.forall_mem_cons.2 ⟨hid, ?_⟩) hsource
  intro text hmem
  obtain ⟨pathname, hpathname, rfl⟩ := List.mem_map.1 hmem
  exact listable_listedDependency htemplate (hflattened pathname hpathname)

/-- Settings without stamps. -/
def unstamped : Config :=
  { Config.standard with stampTemplate := [] }

/-- A file that requires another one. -/
def mainFile : CompiledFile where
  pathname := "/app/main.js"
  id := "#app/main"
  source := "// define(function\ndefine(function () {});"
  dependencies := ["/app/util.js"]
  children := [.absent "/app/util.js"]
  flattened := ["/app/util.js"]
  scope := .empty

/-- A header in a comment is left alone, and the one behind it is replaced by itself. -/
theorem declaredSource_declaredSource_mainFile :
    unstamped.validate = .ok unstamped ∧
      (∀ text ∈ mainFile.id :: mainFile.flattened, Listable text) ∧
      HeaderApart unstamped.headerCallee mainFile.source ∧
      declaredSource unstamped mainFile (declaredSource unstamped mainFile mainFile.source) =
        declaredSource unstamped mainFile mainFile.source := by
  have hvalidate : unstamped.validate = .ok unstamped := by decide +kernel
  have hlistable : ∀ text ∈ mainFile.id :: mainFile.flattened, Listable text := by decide +kernel
  -- in front of the header are a comment, which holds a header of its own, and the end of its line
  have hbefore : Detached (("define(function" : Text) ++ (" () {});" : Text))
      (Lexeme.text (.comment "// define(function") ++ (Lexeme.text (.plain '\n') ++ [])) := by
    refine .cons (.line _ _ (by decide) (by simp [Lexeme.text])) (fun quote heq => by simp at heq)
      (.cons (.other _ _ rfl (by decide)) ?_ .nil)
    rintro quote ⟨⟩ hquote
    exact absurd hquote (by decide)
  have hsource : mainFile.source =
      ("// define(function\n" : Text) ++ ("define(function" : Text) ++ (" () {});" : Text) := by
    decide
  have hapart : HeaderApart unstamped.headerCallee mainFile.source := by
    rw [hsource]
    exact headerApart_append (by decide +kernel) (by decide) hbefore
  refine ⟨hvalidate, hlistable, hapart, ?_⟩
  exact (declaredSource_declaredSource_iff (Config.valid_of_validate hvalidate) rfl hlistable
    hapart).2 fun _ => by decide +kernel

/-- A header that starts in a string opens a comment there, and one on two lines comes within reach
of a call before it: where the header does not stand apart, the one that is written may be lost. -/
example :
    ∀ source ∈ (["x = ['// define(', function () {}];\ndefine(function () {});",
        "define(define\n(function () {}))"] : List String).map String.toList,
      declaredSource unstamped mainFile (declaredSource unstamped mainFile source) ≠
        declaredSource unstamped mainFile source := by
  decide +kernel

/-- A file with the keyword in its name. -/
def functionalFile : CompiledFile where
  pathname := "/app/functional.js"
  id := "#app/functional"
  source := "define(function () {});"
  dependencies := []
  children := []
  flattened := []
  scope := .empty

/-- Its header ends in its name when it is declared again. -/
theorem declaredSource_functionalFile :
    unstamped.validate = .ok unstamped ∧
      (∀ text ∈ functionalFile.id :: functionalFile.flattened, Quotable text) ∧
      declaredSource unstamped functionalFile functionalFile.source =
        "define(\"#app/functional\", [], function () {});".toList ∧
      declaredSource unstamped functionalFile "define(\"#app/functional\", [], function () {});" =
        "define(\"#app/functional\", [], functional\", [], function () {});".toList := by
  decide +kernel

end Output

end ModuleCompiler
