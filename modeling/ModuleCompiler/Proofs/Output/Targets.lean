import ModuleCompiler.CommandLine.Run
import ModuleCompiler.Proofs.Compile.NormalPathnames

/-!
# Where files are read and outputs go

A loader reads a pathname below its root, and the output of a module goes below the output
directory, to the path that its pathname has below the base or, outside of it, below the root.
Pathnames are in normal form, so what is left of one behind a slash neither starts at the root nor
goes up (`IsNormal.leadsDown`). The base need not be in normal form for this: it is taken off where
it stands, or not at all, and what is left follows a slash either way.
-/

namespace ModuleCompiler

open Path

/-! ## Paths that lead down -/

/-- The path does not start at the root and never goes up. -/
def Path.LeadsDown (path : Text) : Prop :=
  isAbsolute path = false ∧ ['.', '.'] ∉ segments path

/-- The path leads down from a directory. -/
def FileTree.Below (dir path : Text) : Prop :=
  ∃ relative, path = joinPath dir relative ∧ LeadsDown relative

namespace Path.IsNormal

variable {path : Text}

/-- A normal path starts at the root. -/
theorem isAbsolute (h : IsNormal path) : Path.isAbsolute path = true := by
  obtain ⟨names, last, hrooted⟩ := h
  rw [hrooted.eq]
  exact isAbsolute_directoryAt names last

/-- What follows a slash in a normal path are names, and then a last one or nothing. -/
theorem exists_names (h : IsNormal path) {before after : Text}
    (heq : path = before ++ '/' :: after) :
    ∃ names last, segments after = names ++ [last] ∧ (∀ name ∈ names, IsName name) ∧
      (last ≠ [] → IsName last) := by
  obtain ⟨all, last, hrooted⟩ := h
  rw [heq] at hrooted
  obtain ⟨above, below, rfl, -, hafter⟩ := hrooted.split
  exact ⟨below, last, hafter,
    fun name hmem => hrooted.isName name (List.mem_append_right _ hmem), hrooted.last_isName⟩

/-- What follows a slash in a normal path leads only down. -/
theorem leadsDown (h : IsNormal path) {before after : Text} (heq : path = before ++ '/' :: after) :
    LeadsDown after := by
  obtain ⟨names, last, hafter, hnames, hlast⟩ := h.exists_names heq
  constructor
  · -- a slash at the start would leave an empty segment before the last one
    rw [Bool.eq_false_iff, Ne, isAbsolute_iff]
    rintro ⟨rest, hrest, hcons⟩
    rw [hafter] at hcons
    rcases names with _ | ⟨first, inner⟩
    · exact hrest (List.cons.inj hcons).2.symm
    · exact (hnames first List.mem_cons_self).nonempty (List.cons.inj hcons).1
  · rw [hafter, List.mem_append, List.mem_singleton, not_or]
    refine ⟨fun hmem => (hnames _ hmem).ne_dots rfl, ?_⟩
    rintro rfl
    exact (hlast (List.cons_ne_nil _ _)).ne_dots rfl

/-- The slash at the start of a normal path is the only one there. -/
theorem eq_slash_cons_dropLeading (h : IsNormal path) :
    path = '/' :: Text.dropLeading '/' path := by
  obtain ⟨rest, rfl⟩ := exists_of_isAbsolute h.isAbsolute
  have hrest : Path.isAbsolute rest = false := (h.leadsDown (List.nil_append _).symm).1
  rcases rest with _ | ⟨c, rest⟩
  · rfl
  · have hc : ¬ c = '/' := by simpa [Path.isAbsolute] using hrest
    simp [Text.dropLeading, hc]

end Path.IsNormal

/-- What a loader reads for a normal pathname is below its root. -/
theorem FileTree.below_locate {pathname : Text} (h : IsNormal pathname) (root : Text) :
    Below root (locate root pathname) := by
  have heq : pathname = [] ++ '/' :: Text.dropLeading '/' pathname := h.eq_slash_cons_dropLeading
  exact ⟨Text.dropLeading '/' pathname, rfl, h.leadsDown heq⟩

/-! ## Targets -/

namespace CommandLine

variable {base pathname : Text}

/-- The pathname of a module is the base and the path of its output, or the root and that path. -/
theorem outputPath_cases (h : IsNormal pathname) :
    pathname = base ++ outputPath base pathname ∨ pathname = '/' :: outputPath base pathname := by
  rw [outputPath]
  rcases hdrop : Text.dropStart? base pathname with _ | rest
  · exact .inr h.eq_slash_cons_dropLeading
  · exact .inl ((List.append_eq_of_isPrefixOf?_eq_some hdrop).symm)

/-- The path of an output follows a slash of the pathname. -/
theorem exists_before_outputPath (h : IsNormal pathname) (hbase : base.getLast? = some '/') :
    ∃ before, pathname = before ++ '/' :: outputPath base pathname := by
  obtain ⟨front, hfront⟩ := List.getLast?_eq_some_iff.1 hbase
  have hcases : pathname = base ++ outputPath base pathname ∨
      pathname = '/' :: outputPath base pathname := outputPath_cases h
  rcases hcases with hcase | hcase
  · refine ⟨front, ?_⟩
    calc pathname = base ++ outputPath base pathname := hcase
      _ = front ++ ['/'] ++ outputPath base pathname := congrArg (· ++ _) hfront
      _ = front ++ '/' :: outputPath base pathname := List.append_assoc ..
  · exact ⟨[], hcase⟩

/-- The path of an output leads only down. -/
theorem leadsDown_outputPath (h : IsNormal pathname) (hbase : base.getLast? = some '/') :
    LeadsDown (outputPath base pathname) := by
  obtain ⟨before, hbefore⟩ := exists_before_outputPath h hbase
  exact h.leadsDown hbefore

/-! ## What is written -/

variable {options : Options} {config : Config} {tree : FileTree} {dir : Text}
  {modules : List (Option Compiler.CompiledModule)}

/-- What a compile of all entries answers: one result for each, in order. The results are outputs of
files that a table holds under their pathnames, all in normal form. -/
theorem exists_of_compileEntries (hvalid : config.Valid)
    (h : compileEntries options config tree = .ok modules) :
    ∃ table : Table CompiledFile, modules.length = options.entries.length ∧
      ∀ module, some module ∈ modules → IsNormal module.file.pathname ∧
        table.get? module.file.pathname = some module.file ∧
        module.code = Output.finalize config module.file := by
  let compiler : Compiler := ⟨config, tree.loader (options.root.getD ['/'])⟩
  rcases hexec : (compiler.compileAll options.entries).exec .initial with ⟨outcome, after⟩
  obtain rfl : outcome = .ok modules := by
    have hfirst := congrArg Prod.fst hexec
    exact hfirst.symm.trans h
  obtain ⟨hafter, hlength, hresults⟩ :=
    Compiler.stored_of_compileAll hvalid (Session.normal_initial _) hexec
  refine ⟨after.compiled, hlength, fun module hmem => ?_⟩
  obtain ⟨hstored, hcode⟩ := hresults module hmem
  exact ⟨hafter.compiled hstored, hstored, hcode⟩

/-- The result of an entry is written to the path of its module. -/
theorem actionFor_some (hdir : options.outDir = some dir) (base entry : Text)
    (module : Compiler.CompiledModule) :
    actionFor options base entry (some module) =
      .write (FileTree.joinPath dir (outputPath base module.file.pathname)) module.file.id
        module.code := by
  simp only [actionFor, hdir]

/-- What is written is the output of a module, at the path of its pathname. -/
theorem exists_of_actionFor_eq_write {base entry target id code : Text}
    {result : Option Compiler.CompiledModule} (hdir : options.outDir = some dir)
    (h : actionFor options base entry result = .write target id code) :
    ∃ module, result = some module ∧
      target = FileTree.joinPath dir (outputPath base module.file.pathname) ∧
      code = module.code := by
  rcases result with _ | module
  · simp [actionFor] at h
  · rw [actionFor_some hdir] at h
    obtain ⟨rfl, -, rfl⟩ := Action.write.inj h
    exact ⟨module, rfl, rfl, rfl⟩

/-! ## Everything stays below -/

/-- Every request of a session is for a path below the root of its loader, whatever the loader
answers, and every output is written below the output directory. -/
theorem requests_and_targets_below {config checked : Config}
    (hconfig : config.validate = .ok checked) (hname : config.NamesDescriptor) :
    (∀ (loader : Loader) (steps : List Step),
      ∀ request ∈ (Compiler.after ⟨checked, loader⟩ steps).requests,
        IsNormal request.pathname ∧
          ∀ root, FileTree.Below root (FileTree.locate root request.pathname)) ∧
    ∀ options tree dir modules, options.outDir = some dir →
      compileEntries options checked tree = .ok modules →
      ∀ target id code, .write target id code ∈ actions options checked.base modules →
        FileTree.Below dir target := by
  have hvalid := Config.valid_of_validate hconfig
  have hchecked : checked.NamesDescriptor := by
    rw [Config.eq_of_validate hconfig]
    exact hname
  refine ⟨fun loader steps request hmem => ?_, ?_⟩
  · have hsession : (Compiler.after ⟨checked, loader⟩ steps).Normal checked :=
      Compiler.normal_after ⟨checked, loader⟩ hvalid steps
    have hnormal := (hsession.requested request hmem).pathname hvalid hchecked
    exact ⟨hnormal, FileTree.below_locate hnormal⟩
  · -- a target is joined from the output directory and what follows a slash of a pathname
    intro options tree dir modules hdir hmodules target id code hmem
    obtain ⟨⟨entry, result⟩, hpair, hwrite⟩ := List.mem_map.1 hmem
    obtain ⟨module, rfl, rfl, -⟩ := exists_of_actionFor_eq_write hdir hwrite
    obtain ⟨_, -, hresults⟩ := exists_of_compileEntries hvalid hmodules
    obtain ⟨hnormal, -, -⟩ := hresults module (List.of_mem_zip hpair).2
    exact ⟨_, rfl, leadsDown_outputPath hnormal hvalid.base_directory⟩

/-- A file outside of the base that is required by a path with too many steps up. -/
def climbingTree : FileTree := .ofFiles [] [
  ("app/main.js", .text "require('#../../lib//./util');"),
  ("lib/util.js", .text "")]

theorem requests_and_targets_below_climbingTree :
    let checked : Config := { base := "/app/" }
    let options : Options := { entries := ["./x/../../../app/main.js"], outDir := some "out" }
    Config.validate { base := "/app" } = .ok checked ∧ Config.NamesDescriptor { base := "/app" } ∧
      (IsNormal "/lib/util.js" ∧
        FileTree.Below "/srv" (FileTree.locate "/srv" "/lib/util.js")) ∧
      ∃ modules code, compileEntries options checked climbingTree = .ok modules ∧
        .write "out/main.js" "#main" code ∈ actions options checked.base modules ∧
        FileTree.Below "out" "out/main.js" := by
  intro checked options
  have hconfig : Config.validate { base := "/app" } = .ok checked := by decide
  have hname : Config.NamesDescriptor { base := "/app" } := ⟨by decide, by decide⟩
  have hrequest : ⟨.module, "/lib/util.js"⟩ ∈ (Compiler.after ⟨checked, climbingTree.loader ['/']⟩
      [.compileAll options.entries]).requests := by
    decide +kernel
  have hactions : (compileEntries options checked climbingTree).toOption.map
      (actions options checked.base) =
        some [.write "out/main.js" "#main"
          "// #optional </lib/util.js>\n\nrequire('#/lib/util?t=#ts(\"/lib/util.js\")');"] := by
    decide +kernel
  obtain ⟨hrequests, htargets⟩ := requests_and_targets_below hconfig hname
  obtain ⟨hnormal, hbelow⟩ := hrequests _ _ _ hrequest
  refine ⟨hconfig, hname, ⟨hnormal, hbelow _⟩, ?_⟩
  rcases hmodules : compileEntries options checked climbingTree with halt | modules
  · simp [hmodules, Except.toOption] at hactions
  · simp only [hmodules, Except.toOption, Option.map_some, Option.some.injEq] at hactions
    have hwrite := List.mem_singleton_self (Action.write "out/main.js" "#main"
      "// #optional </lib/util.js>\n\nrequire('#/lib/util?t=#ts(\"/lib/util.js\")');")
    rw [← hactions] at hwrite
    exact ⟨modules, _, rfl, hwrite, htargets _ _ _ _ rfl hmodules _ _ _ hwrite⟩

end CommandLine

end ModuleCompiler
