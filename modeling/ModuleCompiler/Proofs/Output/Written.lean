import ModuleCompiler.Proofs.FileTree.Writing
import ModuleCompiler.Proofs.Output.Targets

/-!
# What is left of the outputs

A run that ends well has written the output of every entry, one after the other, and a later one may
replace an earlier one. Outputs of one module are the same text. Two modules have the same target
when one is below the base and the other, outside of it, has the same path below the root: then the
output that is written first is lost, and the run reports both. All other outputs are left.

The proof goes from names to places. `outputPath_eq_iff` says when two modules share a target:
their pathnames agree or one `Shadows` the other. `placeOf_joinPath` adds that two targets which can
be written lead to one place only if they are the same text, so no further outputs can collide
through `.` or `..` in a target. `read_perform_append` is the frame rule for actions: what is
written is left if nothing that is written later goes to its place. `outputs_kept` puts them
together for a run, and `outputs_lost_shadowingTree` is a run that loses an output.
-/

namespace ModuleCompiler

open Path

/-! ## Places below a directory -/

namespace FileTree

variable {tree : FileTree} {relative : Text}

/-- The text that stands before every path below a directory is empty or ends in a slash. -/
theorem exists_joinPath (dir : Text) :
    ∃ before, (before = [] ∨ ∃ front, before = front ++ ['/']) ∧
      ∀ relative, isAbsolute relative = false → joinPath dir relative = before ++ relative := by
  by_cases hnil : dir = []
  · exact ⟨[], .inl rfl, fun relative h => by simp [joinPath, h, hnil]⟩
  · rcases hends : endsInSlash dir with _ | _
    · exact ⟨dir ++ ['/'], .inr ⟨dir, rfl⟩, fun relative h => by simp [joinPath, h, hnil, hends]⟩
    · exact ⟨dir, .inr (exists_of_endsInSlash hends),
        fun relative h => by simp [joinPath, h, hnil, hends]⟩

/-- Different paths stay different below a directory. -/
theorem joinPath_inj {dir other : Text} (h : isAbsolute relative = false)
    (h' : isAbsolute other = false) :
    joinPath dir relative = joinPath dir other ↔ relative = other := by
  obtain ⟨before, -, hjoin⟩ := exists_joinPath dir
  rw [hjoin relative h, hjoin other h', List.append_cancel_left_eq]

/-- A path that consists of names starts in the current directory. -/
theorem isAbsolute_of_isName (h : ∀ name ∈ segments relative, IsName name) :
    isAbsolute relative = false := by
  rw [Bool.eq_false_iff, Ne, isAbsolute_iff]
  rintro ⟨rest, -, hsegments⟩
  exact (h [] (by rw [hsegments]; exact List.mem_cons_self)).nonempty rfl

/-- Names lead from one place below a directory, whatever they are. -/
theorem placeOf_joinPath (tree : FileTree) (dir : Text) :
    ∃ above, ∀ relative, (∀ name ∈ segments relative, IsName name) →
      tree.placeOf (joinPath dir relative) = above ++ segments relative := by
  obtain ⟨before, hbefore, hjoin⟩ := exists_joinPath dir
  refine ⟨tree.placeOf before, fun relative hnames => ?_⟩
  have hrelative := isAbsolute_of_isName hnames
  rw [hjoin relative hrelative]
  -- The directory is the current one, which adds nothing, or it ends in a slash: then its segments
  -- are followed first, and the blank one behind the slash leads nowhere else.
  rcases hbefore with rfl | ⟨front, rfl⟩
  · rw [List.nil_append, placeOf, originOf, hrelative, foldl_advance_of_isName hnames]
    rfl
  · have horigin : tree.originOf (front ++ ['/'] ++ relative) = tree.originOf (front ++ ['/']) := by
      rw [originOf, originOf, isAbsolute, isAbsolute, List.head?_append_of_ne_nil _ (by simp)]
    have hslash : segments (front ++ ['/']) = segments front ++ [[]] :=
      segments_append_slash' front []
    have hsegments : segments (front ++ ['/'] ++ relative) =
        segments front ++ segments relative := by
      rw [List.append_assoc, List.singleton_append, segments_append_slash']
    rw [placeOf, placeOf, horigin, hsegments, hslash, List.foldl_append, List.foldl_append,
      foldl_advance_of_isName hnames]
    rfl

/-- What is below a directory ends as it does without the directory. -/
theorem lastSegment_joinPath (dir : Text) (h : isAbsolute relative = false) :
    lastSegment (joinPath dir relative) = lastSegment relative := by
  obtain ⟨before, hbefore, hjoin⟩ := exists_joinPath dir
  rw [hjoin relative h]
  rcases hbefore with rfl | ⟨front, rfl⟩
  · rfl
  · rw [List.append_assoc, List.singleton_append, lastSegment_append_slash]

end FileTree

namespace CommandLine

/-! ## Targets that coincide -/

variable {base first second pathname : Text}

/-- The second pathname lies outside the base, at the path below the root that the first has below
the base. -/
def Shadows (base first second : Text) : Prop :=
  ∃ inner, first = base ++ inner ∧ second = '/' :: inner ∧ ¬ base <+: second

instance (base first second : Text) : Decidable (Shadows base first second) :=
  decidable_of_iff
    (base <+: first ∧ second = '/' :: first.drop base.length ∧ ¬ base <+: second) <| by
    constructor
    · rintro ⟨⟨inner, rfl⟩, hsecond, houtside⟩
      rw [List.drop_left] at hsecond
      exact ⟨inner, rfl, hsecond, houtside⟩
    · rintro ⟨inner, rfl, hsecond, houtside⟩
      exact ⟨⟨inner, rfl⟩, by rwa [List.drop_left], houtside⟩

/-- Below the base, the target is the path below it. -/
theorem outputPath_append (base inner : Text) : outputPath base (base ++ inner) = inner := by
  have hdrop : Text.dropStart? base (base ++ inner) = some inner :=
    List.isPrefixOf?_eq_some_iff_append_eq.2 rfl
  rw [outputPath, hdrop, Option.getD_some]

/-- Outside the base, the target is the pathname without its slash. -/
theorem eq_slash_cons_outputPath (h : IsNormal pathname) (hbase : ¬ base <+: pathname) :
    pathname = '/' :: outputPath base pathname := by
  have hcases : pathname = base ++ outputPath base pathname ∨
      pathname = '/' :: outputPath base pathname := outputPath_cases h
  exact hcases.resolve_left fun hinside => hbase ⟨_, hinside.symm⟩

/-- A module shares its target with the one that shadows it. -/
theorem Shadows.outputPath_eq (h : Shadows base first second) (hsecond : IsNormal second) :
    outputPath base first = outputPath base second := by
  obtain ⟨inner, rfl, houtside, hbase⟩ := h
  have hslash := eq_slash_cons_outputPath hsecond hbase
  rw [outputPath_append]
  exact (List.cons.inj (houtside.symm.trans hslash)).2

/-- Outputs of different modules coincide when one lies outside the base and shadows the other. -/
theorem outputPath_eq_iff (hfirst : IsNormal first) (hsecond : IsNormal second) :
    outputPath base first = outputPath base second ↔
      first = second ∨ Shadows base first second ∨ Shadows base second first := by
  constructor
  · intro heq
    -- A pathname below the base loses the base, one outside of it only its slash: paths can
    -- coincide across the two cases, and that is what shadowing is.
    by_cases hin : base <+: first
    · obtain ⟨inner, rfl⟩ := hin
      rw [outputPath_append] at heq
      by_cases hin' : base <+: second
      · obtain ⟨other, rfl⟩ := hin'
        rw [outputPath_append] at heq
        exact .inl (by rw [heq])
      · exact .inr (.inl ⟨inner, rfl, heq ▸ eq_slash_cons_outputPath hsecond hin', hin'⟩)
    · have hslash := eq_slash_cons_outputPath hfirst hin
      by_cases hin' : base <+: second
      · obtain ⟨inner, rfl⟩ := hin'
        rw [outputPath_append] at heq
        exact .inr (.inr ⟨inner, rfl, heq ▸ hslash, hin⟩)
      · left
        rw [hslash, heq, ← eq_slash_cons_outputPath hsecond hin']
  · rintro (rfl | hshadows | hshadows)
    · rfl
    · exact hshadows.outputPath_eq hsecond
    · exact (hshadows.outputPath_eq hfirst).symm

/-- Below one directory as well. -/
theorem joinPath_outputPath_eq_iff {dir : Text} (hfirst : IsNormal first)
    (hsecond : IsNormal second) (hbase : base.getLast? = some '/') :
    FileTree.joinPath dir (outputPath base first) = FileTree.joinPath dir (outputPath base second) ↔
      first = second ∨ Shadows base first second ∨ Shadows base second first := by
  rw [FileTree.joinPath_inj (leadsDown_outputPath hfirst hbase).1
    (leadsDown_outputPath hsecond hbase).1]
  exact outputPath_eq_iff hfirst hsecond

/-- An output whose target ends in a name has names only in its path. -/
theorem isName_of_mem_outputPath {dir : Text} (h : IsNormal pathname)
    (hbase : base.getLast? = some '/')
    (hname : IsName (lastSegment (FileTree.joinPath dir (outputPath base pathname)))) :
    ∀ name ∈ segments (outputPath base pathname), IsName name := by
  obtain ⟨before, hbefore⟩ := exists_before_outputPath h hbase
  obtain ⟨names, last, hsegments, hnames, -⟩ := h.exists_names hbefore
  rw [FileTree.lastSegment_joinPath dir (leadsDown_outputPath h hbase).1,
    lastSegment_of_segments hsegments] at hname
  intro name hmem
  rw [hsegments, List.mem_append, List.mem_singleton] at hmem
  rcases hmem with hmem | rfl
  · exact hnames name hmem
  · exact hname

/-- Targets that lead to one place are the same. -/
theorem outputPath_eq_of_placeOf {tree : FileTree} {dir : Text} (hfirst : IsNormal first)
    (hsecond : IsNormal second) (hbase : base.getLast? = some '/')
    (hname : IsName (lastSegment (FileTree.joinPath dir (outputPath base first))))
    (hname' : IsName (lastSegment (FileTree.joinPath dir (outputPath base second))))
    (hplace : tree.placeOf (FileTree.joinPath dir (outputPath base first)) =
      tree.placeOf (FileTree.joinPath dir (outputPath base second))) :
    outputPath base first = outputPath base second := by
  obtain ⟨above, habove⟩ := tree.placeOf_joinPath dir
  rw [habove _ (isName_of_mem_outputPath hfirst hbase hname),
    habove _ (isName_of_mem_outputPath hsecond hbase hname')] at hplace
  have hsegments := List.append_cancel_left hplace
  rw [← ofSegments_segments (outputPath base first), hsegments, ofSegments_segments]

/-! ## Performing -/

namespace Outcome

variable {outcome : Outcome} {target id code : Text}

/-- What is performed takes no file or directory away. -/
theorem extends_perform (outcome : Outcome) (actions : List Action) :
    outcome.tree.Extends (outcome.perform actions).tree := by
  -- On the actions: only a write touches the tree, and it lets the tree grow.
  induction actions generalizing outcome with
  | nil => exact .refl _
  | cons action rest ih =>
    cases action with
    | skip entry =>
      exact ih { outcome with stderr := outcome.stderr ++ skippedLine entry }
    | print code =>
      exact ih { outcome with stdout := outcome.stdout ++ code ++ ['\n'] }
    | write target id code =>
      rw [perform]
      split
      · exact .refl _
      · rename_i tree hwrite
        exact (FileTree.of_write hwrite).grows.trans (ih { outcome with
          tree := tree, stderr := outcome.stderr ++ compiledLine id target })

/-- Actions that all succeed are performed one part after the other. -/
theorem perform_append {ahead behind : List Action}
    (h : (outcome.perform (ahead ++ behind)).exitCode = 0) :
    outcome.perform (ahead ++ behind) = (outcome.perform ahead).perform behind := by
  induction ahead generalizing outcome with
  | nil => rfl
  | cons action rest ih =>
    cases action with
    | skip entry => exact ih h
    | print code => exact ih h
    | write target id code =>
      rw [List.cons_append, perform] at h
      rw [List.cons_append, perform, perform]
      split at h
      · simp [stopped] at h
      · exact ih h

/-- What can be read is left when nothing else is written to its place. -/
theorem read_perform {actions : List Action} (h : (outcome.perform actions).exitCode = 0)
    (hread : outcome.tree.read target = .ok code)
    (hkept : ∀ other id text, .write other id text ∈ actions → IsName (lastSegment other) →
      outcome.tree.placeOf target = outcome.tree.placeOf other → code = text) :
    (outcome.perform actions).tree.read target = .ok code := by
  -- The text is there now, and stays there over one action after the other: a place does not move
  -- when the tree grows, so `hkept` speaks of the same places throughout.
  induction actions generalizing outcome with
  | nil => exact hread
  | cons action rest ih =>
    have hrest : ∀ other id text, .write other id text ∈ rest → IsName (lastSegment other) →
        outcome.tree.placeOf target = outcome.tree.placeOf other → code = text :=
      fun other id text hmem => hkept other id text (List.mem_cons_of_mem _ hmem)
    cases action with
    | skip entry => exact ih h hread hrest
    | print code => exact ih h hread hrest
    | write other id text =>
      rw [perform] at h ⊢
      split at h
      · simp [stopped] at h
      · rename_i tree hwrite
        have hstores := FileTree.of_write hwrite
        refine ih h (hstores.read_of_ne hread (hkept other id text List.mem_cons_self
          hstores.named)) fun other' id' text' hmem hname hplace => ?_
        rw [hstores.grows.placeOf, hstores.grows.placeOf] at hplace
        exact hrest other' id' text' hmem hname hplace

/-- What is written is left when nothing else is written to its place later. -/
theorem read_perform_append {ahead behind : List Action}
    (h : (outcome.perform (ahead ++ .write target id code :: behind)).exitCode = 0)
    (hkept : IsName (lastSegment target) → ∀ other id text, .write other id text ∈ behind →
      IsName (lastSegment other) →
        outcome.tree.placeOf target = outcome.tree.placeOf other → code = text) :
    (outcome.perform (ahead ++ .write target id code :: behind)).tree.read target = .ok code := by
  have hgrows := outcome.extends_perform ahead
  have hparts := perform_append h
  rw [hparts] at h ⊢
  rw [perform] at h ⊢
  split at h
  · simp [stopped] at h
  · rename_i tree hwrite
    have hstores := FileTree.of_write hwrite
    refine read_perform h hstores.read fun other id text hmem hname hplace => ?_
    rw [(hgrows.trans hstores.grows).placeOf, (hgrows.trans hstores.grows).placeOf] at hplace
    exact hkept hstores.named other id text hmem hname hplace

end Outcome

/-! ## Runs -/

variable {options : Options} {environmentBase : Option Text} {config : Config} {tree : FileTree}
  {dir : Text} {modules : List (Option Compiler.CompiledModule)}

/-- The settings that a run compiles with have been checked. -/
theorem valid_of_configOf {file : Except Text Text}
    (h : configOf options environmentBase file = .ok config) : config.Valid := by
  simp only [configOf, bind, Except.bind] at h
  split at h
  · exact Config.valid_of_validate h
  · simp at h
  · split at h
    · exact Config.valid_of_validate h
    · simp at h

/-- A run that ends well has compiled all entries and performed all that follows from it. -/
theorem exists_of_runOptions (h : (runOptions options environmentBase tree).exitCode = 0) :
    ∃ config modules, configOf options environmentBase (configFile options tree) = .ok config ∧
      compileEntries options config tree = .ok modules ∧
      runOptions options environmentBase tree =
        Outcome.perform ⟨0, [], [], tree⟩ (actions options config.base modules) := by
  rw [runOptions] at h ⊢
  dsimp only at h ⊢
  split at h
  · simp [Outcome.stopped] at h
  · rename_i config hconfig
    split at h
    · rename_i modules hmodules
      exact ⟨config, modules, hconfig, hmodules, rfl⟩
    · simp [Outcome.stopped] at h
    · simp at h

/-- Of two modules of a run whose targets lead to one place, one shadows the other, or they are the
same module and have the same output. -/
theorem code_eq_of_placeOf (hvalid : config.Valid)
    (hmodules : compileEntries options config tree = .ok modules)
    {module later : Compiler.CompiledModule} (hmem : some module ∈ modules)
    (hmem' : some later ∈ modules) {place : FileTree}
    (hname : IsName (lastSegment
      (FileTree.joinPath dir (outputPath config.base module.file.pathname))))
    (hname' : IsName (lastSegment
      (FileTree.joinPath dir (outputPath config.base later.file.pathname))))
    (hplace : place.placeOf (FileTree.joinPath dir (outputPath config.base module.file.pathname)) =
      place.placeOf (FileTree.joinPath dir (outputPath config.base later.file.pathname)))
    (hbefore : ¬ Shadows config.base module.file.pathname later.file.pathname)
    (hbehind : ¬ Shadows config.base later.file.pathname module.file.pathname) :
    module.code = later.code := by
  obtain ⟨table, -, hresults⟩ := exists_of_compileEntries hvalid hmodules
  obtain ⟨hnormal, hstored, hcode⟩ := hresults module hmem
  obtain ⟨hnormal', hstored', hcode'⟩ := hresults later hmem'
  have hpath := outputPath_eq_of_placeOf hnormal hnormal' hvalid.base_directory hname hname' hplace
  have hsame : module.file.pathname = later.file.pathname :=
    ((outputPath_eq_iff hnormal hnormal').1 hpath).resolve_right (not_or_intro hbefore hbehind)
  -- one file is stored under the pathname, so the two outputs are made of the same file
  rw [hsame, hstored'] at hstored
  rw [hcode, hcode', Option.some.inj hstored]

/-- The actions of a run leave the output of an entry, unless a later entry is another module with
the same target. -/
theorem read_perform_actions {outcome : Outcome} (hvalid : config.Valid)
    (hdir : options.outDir = some dir) (hmodules : compileEntries options config tree = .ok modules)
    (hexit : (outcome.perform (actions options config.base modules)).exitCode = 0)
    {ahead behind : List (Text × Option Compiler.CompiledModule)} {entry : Text}
    {module : Compiler.CompiledModule}
    (hsplit : options.entries.zip modules = ahead ++ (entry, some module) :: behind)
    (hlater : ∀ other later, (other, some later) ∈ behind →
      ¬ Shadows config.base module.file.pathname later.file.pathname ∧
      ¬ Shadows config.base later.file.pathname module.file.pathname) :
    (outcome.perform (actions options config.base modules)).tree.read
      (FileTree.joinPath dir (outputPath config.base module.file.pathname)) = .ok module.code := by
  have hactions : actions options config.base modules =
      ahead.map (fun pair => actionFor options config.base pair.1 pair.2) ++
        .write (FileTree.joinPath dir (outputPath config.base module.file.pathname))
            module.file.id module.code ::
          behind.map fun pair => actionFor options config.base pair.1 pair.2 := by
    rw [actions, hsplit, List.map_append, List.map_cons, ← actionFor_some hdir _ entry]
  have hmem : ∀ pair ∈ (entry, some module) :: behind, pair.2 ∈ modules := by
    intro pair hpair
    have hzip : pair ∈ options.entries.zip modules := by
      rw [hsplit]
      exact List.mem_append_right _ hpair
    exact (List.of_mem_zip hzip).2
  rw [hactions] at hexit ⊢
  refine Outcome.read_perform_append hexit fun hname target id text hwrite hname' hplace => ?_
  -- what is written later is the output of a later entry
  obtain ⟨⟨other, result⟩, hpair, haction⟩ := List.mem_map.1 hwrite
  obtain ⟨later, rfl, rfl, rfl⟩ := exists_of_actionFor_eq_write hdir haction
  obtain ⟨hbefore, hbehind⟩ := hlater other later hpair
  exact code_eq_of_placeOf hvalid hmodules (hmem _ List.mem_cons_self)
    (hmem _ (List.mem_cons_of_mem _ hpair)) hname hname' hplace hbefore hbehind

/-- A run with an output directory that ends well has written an output for every entry that is a
module. Each of them is left afterwards, unless a later entry is another module with the same
target; this is the case only when one of the two pathnames shadows the other. -/
theorem outputs_kept {arguments : List Text} (hparse : parse arguments = .compile options)
    (hdir : options.outDir = some dir)
    (hexit : (run arguments environmentBase tree).exitCode = 0) :
    ∃ config modules, configOf options environmentBase (configFile options tree) = .ok config ∧
      compileEntries options config tree = .ok modules ∧
      modules.length = options.entries.length ∧
      (∀ ahead entry module behind,
        options.entries.zip modules = ahead ++ (entry, some module) :: behind →
        (∀ other later, (other, some later) ∈ behind →
          ¬ Shadows config.base module.file.pathname later.file.pathname ∧
          ¬ Shadows config.base later.file.pathname module.file.pathname) →
        (run arguments environmentBase tree).tree.read
          (FileTree.joinPath dir (outputPath config.base module.file.pathname)) =
            .ok module.code) ∧
      ∀ first second, some first ∈ modules → some second ∈ modules →
        (FileTree.joinPath dir (outputPath config.base first.file.pathname) =
            FileTree.joinPath dir (outputPath config.base second.file.pathname) ↔
          first.file.pathname = second.file.pathname ∨
            Shadows config.base first.file.pathname second.file.pathname ∨
            Shadows config.base second.file.pathname first.file.pathname) := by
  have hrun : run arguments environmentBase tree = runOptions options environmentBase tree := by
    rw [run, hparse]
  rw [hrun] at hexit ⊢
  obtain ⟨config, modules, hconfig, hmodules, hperform⟩ := exists_of_runOptions hexit
  have hvalid := valid_of_configOf hconfig
  obtain ⟨table, hlength, hresults⟩ := exists_of_compileEntries hvalid hmodules
  refine ⟨config, modules, hconfig, hmodules, hlength, ?_, ?_⟩
  · intro ahead entry module behind hsplit hlater
    rw [hperform] at hexit ⊢
    exact read_perform_actions hvalid hdir hmodules hexit hsplit hlater
  · intro first second hfirst hsecond
    obtain ⟨hnormal, -, -⟩ := hresults first hfirst
    obtain ⟨hnormal', -, -⟩ := hresults second hsecond
    exact joinPath_outputPath_eq_iff hnormal hnormal' hvalid.base_directory

/-- Two files that shadow each other, and one that neither of them shadows. -/
def neighbouringTree : FileTree := .ofFiles [] [
  ("srv/x.js", .text "define(function () \x7b return 1; \x7d);"),
  ("x.js", .text "define(function () \x7b return 2; \x7d);"),
  ("srv/y.js", .text "define(function () \x7b return 3; \x7d);")]

/-- The command line that compiles all of them. -/
def neighbouringArguments : List Text :=
  ["-b", "/srv", "-r", ".", "-o", "out", "/srv/x.js", "/x.js", "/srv/y.js"]

/-- What that command line means. -/
def neighbouringOptions : Options where
  entries := ["/srv/x.js", "/x.js", "/srv/y.js"]
  base := some "/srv"
  root := some "."
  outDir := some "out"

/-- The output of the second entry is left: the third one, behind it, does not shadow it. -/
theorem outputs_kept_neighbouringTree :
    parse neighbouringArguments = .compile neighbouringOptions ∧
      neighbouringOptions.outDir = some ("out" : Text) ∧
      (run neighbouringArguments none neighbouringTree).exitCode = 0 ∧
      ∃ config modules entry second third,
        neighbouringOptions.entries.zip modules = [entry] ++ ("/x.js".toList, some second) ::
          [("/srv/y.js".toList, some third)] ∧
        compileEntries neighbouringOptions config neighbouringTree = .ok modules ∧
        ¬ Shadows config.base second.file.pathname third.file.pathname ∧
        second.code = "define(\"#/x\", [], function () \x7b return 2; \x7d);".toList ∧
        (run neighbouringArguments none neighbouringTree).tree.read "out/x.js" =
          .ok second.code := by
  have hparse : parse neighbouringArguments = .compile neighbouringOptions := by decide
  have hexit : (run neighbouringArguments none neighbouringTree).exitCode = 0 := by
    decide +kernel
  obtain ⟨config, modules, hconfig, hmodules, -, hkept, -⟩ := outputs_kept hparse rfl hexit
  obtain rfl : config = { base := "/srv/" } := by
    have hbase : configOf neighbouringOptions none (configFile neighbouringOptions
        neighbouringTree) = .ok { base := "/srv/" } := by decide +kernel
    rw [hbase] at hconfig
    exact (Except.ok.inj hconfig).symm
  have hresults : (compileEntries neighbouringOptions { base := "/srv/" }
      neighbouringTree).toOption.map
        (List.map (Option.map fun module => (module.file.pathname, module.code))) = some [
      some ("/srv/x.js".toList, "define(\"#x\", [], function () \x7b return 1; \x7d);".toList),
      some ("/x.js".toList, "define(\"#/x\", [], function () \x7b return 2; \x7d);".toList),
      some ("/srv/y.js".toList,
        "define(\"#y\", [], function () \x7b return 3; \x7d);".toList)] := by
    decide +kernel
  rw [hmodules] at hresults
  replace hresults := Option.some.inj hresults
  simp only [List.map_eq_cons_iff, List.map_eq_nil_iff, Option.map_eq_some_iff, Prod.mk.injEq]
    at hresults
  obtain ⟨_, _, rfl, ⟨first, rfl, -⟩, _, _, rfl, ⟨second, rfl, hpathname, hcode⟩, _, _, rfl,
    ⟨third, rfl, hthird, -⟩, rfl⟩ := hresults
  -- the two pathnames lie side by side below the base
  have hbefore : ¬ Shadows "/srv/" second.file.pathname third.file.pathname := by
    rw [hpathname, hthird]
    decide
  have hbehind : ¬ Shadows "/srv/" third.file.pathname second.file.pathname := by
    rw [hpathname, hthird]
    decide
  have hread := hkept [_] _ second [_] rfl fun other later hmem => by
    obtain ⟨-, hlater⟩ := Prod.mk.inj (List.mem_singleton.1 hmem)
    rw [Option.some.inj hlater]
    exact ⟨hbefore, hbehind⟩
  rw [hpathname] at hread
  exact ⟨hparse, rfl, hexit, _, _, _, second, third, rfl, hmodules, hbefore, hcode, hread⟩

/-- A file below the base and one outside of it that shadow each other. -/
def shadowingTree : FileTree := .ofFiles [] [
  ("srv/x.js", .text "define(function () \x7b return 1; \x7d);"),
  ("x.js", .text "define(function () \x7b return 2; \x7d);")]

/-- The command line that compiles both. -/
def shadowingArguments : List Text :=
  ["-b", "/srv", "-r", ".", "-o", "out", "/srv/x.js", "/x.js"]

/-- What that command line means. -/
def shadowingOptions : Options where
  entries := ["/srv/x.js", "/x.js"]
  base := some "/srv"
  root := some "."
  outDir := some "out"

/-- The pathnames and outputs of its entries. -/
def shadowingResults : List (Option (Text × Text)) := [
  some ("/srv/x.js", "define(\"#x\", [], function () \x7b return 1; \x7d);"),
  some ("/x.js", "define(\"#/x\", [], function () \x7b return 2; \x7d);")]

/-- Both modules compile. -/
theorem compileEntries_shadowingTree :
    (compileEntries shadowingOptions { base := "/srv/" } shadowingTree).toOption.map
      (List.map (Option.map fun module => (module.file.pathname, module.code))) =
        some shadowingResults := by
  decide +kernel

/-- The run writes twice to one place, and the second text stands there. -/
theorem run_shadowingTree :
    run shadowingArguments none shadowingTree =
      ⟨0, [], compiledLine "#x" "out/x.js" ++ compiledLine "#/x" "out/x.js",
        { shadowingTree.put ["out", "x.js"]
            (.text "define(\"#/x\", [], function () \x7b return 2; \x7d);") with
          directories := [["out"]] }⟩ := by
  decide +kernel

/-- The run ends well and reports both outputs, and the one that it writes first is lost. -/
theorem outputs_lost_shadowingTree :
    let outcome := run shadowingArguments none shadowingTree
    parse shadowingArguments = .compile shadowingOptions ∧ outcome.exitCode = 0 ∧
      (compileEntries shadowingOptions { base := "/srv/" } shadowingTree).toOption.map
        (List.map (Option.map fun module => (module.file.pathname, module.code))) =
          some shadowingResults ∧
      (∀ pathname ∈ ["/srv/x.js", "/x.js"].map String.toList,
        FileTree.joinPath "out" (outputPath "/srv/" pathname) = "out/x.js") ∧
      outcome.stderr = compiledLine "#x" "out/x.js" ++ compiledLine "#/x" "out/x.js" ∧
      outcome.tree.read "out/x.js" =
        .ok "define(\"#/x\", [], function () \x7b return 2; \x7d);" := by
  intro outcome
  have hrun : outcome = _ := run_shadowingTree
  rw [hrun]
  exact ⟨by decide, rfl, compileEntries_shadowingTree, by decide, rfl, by decide +kernel⟩

end CommandLine

end ModuleCompiler
