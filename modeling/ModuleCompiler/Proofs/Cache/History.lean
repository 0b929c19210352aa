import ModuleCompiler.Proofs.Cache.Accounting
import ModuleCompiler.Proofs.Cache.Pins
import ModuleCompiler.Proofs.Compile.Unversioned
import ModuleCompiler.Proofs.Lists

/-!
# What was compiled before makes no difference

Where no descriptor names a version, a compile ends as it ends on a new compiler, whatever its
session holds. A file that it finds compiled is the one it would have compiled, since a compiled
file is a function of the files (`compiled_unique`); and it would have compiled it, since nothing at
or below a compiled file can fail under a trace whose files are not compiled
(`not_failsAt_of_stored`).

Two sessions on which a compile may go on are compared by `EndsAlike`, by induction over the compile
on one of them. The other one may find its file compiled, and `outcome_of_stored` then says that the
first would end with this very file.
-/

namespace ModuleCompiler

variable {config : Config} {source : Text → Reading} {entries : List Text} {trace : Trace}
  {reference : Text}

/-! ## Compiled files are functions of the files -/

/-- The answer to a reference is the same whatever led to it. -/
theorem Dependency.Answers.of_unversioned {dependency : Dependency CompiledFile} {other : Trace}
    (h : dependency.Answers trace reference) (hunversioned : Unversioned config source)
    (hasks : Asks config source entries trace reference)
    (hother : Asks config source entries other reference) :
    dependency.Answers other reference := by
  rw [h.iff_target_eq, hunversioned.target_eq hasks, hunversioned.target_eq hother]

/-- Two answers to a reference are the same once their files are. -/
theorem Dependency.Answers.eq {dependency found : Dependency CompiledFile}
    (h : dependency.Answers trace reference) (h' : found.Answers trace reference)
    (hfile : ∀ file stored, dependency = .module file → found = .module stored →
      file.pathname = stored.pathname → file = stored) : dependency = found := by
  have hsame : dependency.file?.map CompiledFile.pathname = found.file?.map CompiledFile.pathname :=
    Except.ok.inj (h.target_eq.symm.trans h'.target_eq)
  -- an answer with a file and one without cannot mean the same
  rcases dependency with file | kept <;> rcases found with stored | other
  · rw [hfile file stored rfl rfl (Option.some.inj hsame)]
  · simp [Dependency.file?] at hsame
  · simp [Dependency.file?] at hsame
  · rw [h.2, h'.2]

/-- What two sessions have compiled for a pathname is the same file. -/
theorem Session.Invariant.compiled_unique (hunversioned : Unversioned config source)
    {session other : Session} (h : session.Invariant config source entries)
    (h' : other.Invariant config source entries) {file found : CompiledFile}
    (hget : session.compiled.get? file.pathname = some file)
    (hfound : other.compiled.get? found.pathname = some found)
    (heq : file.pathname = found.pathname) : file = found := by
  -- files get smaller on the way down, so the children are the same already
  induction hsize : sizeOf file using Nat.strongRecOn generalizing file found with
  | _ size ih =>
      obtain ⟨trace, halong⟩ := h.compiledAlong hget
      obtain ⟨along, hthere⟩ := h'.compiledAlong hfound
      obtain ⟨-, -, hdependencies⟩ := halong.settled_eq hthere heq
      refine halong.eq_of_children hthere heq ?_
      refine eq_of_forall₂ halong.answers (hdependencies ▸ hthere.answers) ?_
      intro required hmem child hchild child' hchild' hanswer hanswer'
      have hasks := hthere.asks (hdependencies ▸ hmem)
      -- the other child answers the same reference, so it has the same pathname
      have hmoved := hanswer'.of_unversioned hunversioned hasks (halong.asks hmem)
      refine hanswer.eq hmoved ?_
      rintro lower stored rfl rfl hpathname
      have hlt : sizeOf lower < size := hsize ▸ CompiledFile.Requires.sizeOf_lt hchild
      exact ih _ hlt (h.closed hget hchild) (h'.closed hfound hchild') hpathname rfl

/-! ## Compiled files do not fail -/

/-- Neither the file of the dependency nor any below it is in the trace. -/
def Dependency.Avoids (trace : Trace) : Dependency CompiledFile → Prop
  | .module file => ∀ lower, lower = file ∨ file.DependsOn lower →
      lower.pathname ∉ trace.pathnames
  | .absent _ => True

/-- The answer to a reference that means a pathname is a file. -/
theorem Dependency.Answers.exists_file {dependency : Dependency CompiledFile} {pathname : Text}
    (h : dependency.Answers trace reference)
    (htarget : trace.target reference = .ok (some pathname)) :
    ∃ file, dependency = .module file ∧ file.pathname = pathname := by
  rw [h.target_eq] at htarget
  rcases dependency with file | kept
  · exact ⟨file, rfl, Option.some.inj (Except.ok.inj htarget)⟩
  · simp [Dependency.file?] at htarget

/-- What a compiled file requires is compiled, and it avoids the file as well. -/
theorem Dependency.Avoids.child {session : Session} {file : CompiledFile}
    {child : Dependency CompiledFile} (havoids : (Dependency.module file).Avoids trace)
    (h : session.Invariant config source entries)
    (hget : session.compiled.get? file.pathname = some file) (hmem : child ∈ file.children) :
    child.StoredIn session.compiled ∧ child.Avoids (trace ++ [file.frame]) := by
  rcases child with required | kept
  · refine ⟨h.closed hget hmem, fun lower hlower hlisted => ?_⟩
    have hbelow : file.DependsOn lower := CompiledFile.dependsOn_iff.2 ⟨required, hmem, hlower⟩
    rw [CompiledFile.frame, Trace.pathnames_append_frame, List.mem_append, List.mem_singleton]
      at hlisted
    rcases hlisted with habove | heq
    · exact havoids lower (.inr hbelow) habove
    · exact h.pathname_ne_of_dependsOn hget hbelow heq
  · exact ⟨trivial, trivial⟩

/-- No chain of imports from a compiled dependency ends in a failure, where the files of the trace
are not among those at or below it. -/
theorem not_failsAt_of_stored (hunversioned : Unversioned config source) {session : Session}
    (h : session.Invariant config source entries) {frames : Trace} {last : Text}
    {opened : List Text} {error : CompileError} {dependency : Dependency CompiledFile}
    (hdescends : Descends config source trace reference frames last)
    (hasks : Asks config source entries trace reference)
    (hanswers : dependency.Answers trace reference)
    (hstored : dependency.StoredIn session.compiled) (havoids : dependency.Avoids trace) :
    ¬ FailsAt config source (trace ++ frames) last opened error := by
  induction hdescends generalizing dependency with
  | here =>
      rw [List.append_nil]
      intro hfails
      -- no failure is left at a dependency that has an answer, is not in the trace, and is compiled
      cases hfails with
      | meaningless target =>
        rw [hanswers.target_eq] at target
        simp at target
      | cyclic target mem =>
        obtain ⟨file, rfl, rfl⟩ := hanswers.exists_file target
        exact havoids file (.inl rfl) mem
      | unsettled target settled =>
        obtain ⟨file, rfl, rfl⟩ := hanswers.exists_file target
        obtain ⟨along, halong⟩ := h.compiledAlong hstored
        rw [halong.settled] at settled
        simp at settled
  | @down trace frames reference pathname required last loaded target settled mem below ih =>
      obtain ⟨file, rfl, rfl⟩ := hanswers.exists_file target
      obtain ⟨along, halong⟩ := h.compiledAlong hstored
      have hloaded := settled
      rw [halong.settled] at hloaded
      obtain rfl := Except.ok.inj hloaded
      -- the next reference has its answer among the children, which are compiled as well
      obtain ⟨child, hchild, hanswer⟩ := halong.exists_child mem
      have hrequired :
          Asks config source entries (trace ++ [⟨file.pathname, file.scope⟩]) required :=
        .dependency hasks target settled mem
      have hmoved := hanswer.of_unversioned hunversioned (halong.asks mem) hrequired
      obtain ⟨hchildStored, hchildAvoids⟩ := havoids.child h hstored hchild
      have hnext := ih hrequired hmoved hchildStored hchildAvoids
      rwa [List.append_assoc] at hnext

namespace Compiler

variable {compiler : Compiler} {session after other : Session}

/-! ## Compiles on two sessions -/

/-- A session on which the files of a trace may be in the middle of their compiles: none of them is
compiled. -/
structure ReadyFor (config : Config) (source : Text → Reading) (entries : List Text)
    (trace : Trace) (session : Session) : Prop where
  invariant : session.Invariant config source entries
  absent : ∀ pathname ∈ trace.pathnames, session.compiled.get? pathname = none

/-- What is compiled avoids the files in the middle of their compiles. -/
theorem ReadyFor.avoids {file : CompiledFile} (h : ReadyFor config source entries trace session)
    (hget : session.compiled.get? file.pathname = some file) :
    (Dependency.module file).Avoids trace := by
  intro lower hlower hmem
  have hstored : session.compiled.get? lower.pathname = some lower := by
    rcases hlower with rfl | hbelow
    · exact hget
    · exact h.invariant.get?_of_dependsOn hget hbelow
  rw [h.absent _ hmem] at hstored
  simp at hstored

/-- A compile under a trace leaves its files in the middle of their compiles. -/
theorem ReadyFor.of_exec (hreads : compiler.Reads source)
    {outcome : Except Halt (Dependency CompiledFile)}
    (h : ReadyFor compiler.config source entries trace session)
    (hasks : Asks compiler.config source entries trace reference)
    (hexec : (compiler.compileReference trace reference).exec session = (outcome, after)) :
    ReadyFor compiler.config source entries trace after := by
  refine ⟨(establishes_compileReference hreads hexec hasks h.invariant).1, fun pathname hmem => ?_⟩
  have hkept := keepsAbsent_compileReference compiler reference hmem session (h.absent _ hmem)
  rwa [hexec] at hkept

/-- A file that is opened is in the middle of its compile from then on. -/
theorem ReadyFor.of_load (hreads : compiler.Reads source) {pathname : Text} {loaded : LoadedFile}
    (h : ReadyFor compiler.config source entries trace session)
    (hasks : Asks compiler.config source entries trace reference)
    (houtlook : trace.outlook reference session.compiled = .opens pathname)
    (hload : (compiler.loadFile pathname).exec session = (.ok loaded, after)) :
    ReadyFor compiler.config source entries (trace ++ [⟨pathname, loaded.scope⟩]) after := by
  obtain ⟨-, hnone, -⟩ := Trace.outlook_eq_opens_iff.1 houtlook
  obtain ⟨hafter, hcompiled, -⟩ := invariant_loadFile hreads houtlook hload hasks h.invariant
  refine ⟨hafter, fun other hmem => ?_⟩
  rw [Trace.pathnames_append_frame, List.mem_append, List.mem_singleton] at hmem
  rw [hcompiled]
  rcases hmem with hmem | rfl
  · exact h.absent other hmem
  · exact hnone

/-- What is refused on one of two sessions on which a compile may go on is refused on the other. -/
theorem ReadyFor.outlook_eq_refused {config : Config} {error : CompileError}
    (h : ReadyFor config source entries trace session)
    (hother : ReadyFor config source entries trace other)
    (houtlook : trace.outlook reference session.compiled = .refused error) :
    trace.outlook reference other.compiled = .refused error := by
  rw [← houtlook]
  refine Trace.outlook_congr fun pathname htarget => ?_
  -- a pathname that is meant and refused is in the trace, so neither session has it
  have hfails : FailsAt config source trace reference [] error := failsAt_of_outlook houtlook
  cases hfails with
  | meaningless target =>
    rw [htarget] at target
    simp at target
  | cyclic target mem =>
    rw [htarget] at target
    obtain rfl := Option.some.inj (Except.ok.inj target)
    rw [hother.absent _ mem, h.absent _ mem]

/-- Where another session has the file compiled, a compile of it answers that file. -/
theorem outcome_of_stored (hunversioned : Unversioned compiler.config source)
    (hreads : compiler.ReadsAlways source) {outcome : Except Halt (Dependency CompiledFile)}
    {file : CompiledFile}
    (hexec : (compiler.compileReference trace reference).exec session = (outcome, after))
    (hasks : Asks compiler.config source entries trace reference)
    (h : session.Invariant compiler.config source entries)
    (hother : ReadyFor compiler.config source entries trace other)
    (htarget : trace.target reference = .ok (some file.pathname))
    (hget : other.compiled.get? file.pathname = some file) : outcome = .ok (.module file) := by
  have hfile : (Dependency.module file).Answers trace reference := htarget
  rcases outcome with halt | dependency
  · -- the failure would be at or below the file
    obtain ⟨modules, -, hopen⟩ := accounts_compileReference hreads hexec hasks h
    generalize after.uncompiled modules = opened at hopen
    cases hopen with
    | failed descends fails =>
      exact absurd fails (not_failsAt_of_stored hunversioned hother.invariant descends hasks hfile
        hget (hother.avoids hget))
  · obtain ⟨hafter, hanswer⟩ := establishes_compileReference hreads.toReads hexec hasks h
    obtain ⟨hanswers, hstored⟩ := hanswer dependency rfl
    have heq : dependency = .module file := by
      refine hanswers.eq hfile ?_
      rintro found stored rfl heq hpathname
      obtain rfl := Dependency.module.inj heq
      exact hafter.compiled_unique hunversioned hother.invariant hstored hget hpathname
    rw [heq]

/-- A compile ends alike from every session on which it may go on. -/
def EndsAlike (compiler : Compiler) (source : Text → Reading) (entries : List Text)
    (trace : Trace) (reference : Text) (session : Session)
    (outcome : Except Halt (Dependency CompiledFile)) (after : Session) : Prop :=
  (compiler.compileReference trace reference).exec session = (outcome, after) →
  Asks compiler.config source entries trace reference →
  ReadyFor compiler.config source entries trace session →
    ∀ other, ReadyFor compiler.config source entries trace other →
      ∃ last, (compiler.compileReference trace reference).exec other = (outcome, last)

/-- So do the imports of a file together. -/
theorem endsAlike_importRuns (hreads : compiler.Reads source) {required : List Text}
    {outcome : Except Halt (List (Dependency CompiledFile))}
    (hruns : compiler.ImportRuns (compiler.EndsAlike source entries) trace required session
      outcome after)
    (hasks : ∀ reference ∈ required, Asks compiler.config source entries trace reference)
    (h : ReadyFor compiler.config source entries trace session)
    (hother : ReadyFor compiler.config source entries trace other) :
    ∃ last, (required.mapM (compiler.compileReference trace)).exec other = (outcome, last) := by
  induction hruns generalizing other with
  | nil => exact ⟨other, rfl⟩
  | halts head =>
      obtain ⟨last, hlast⟩ := head.2 head.1 (hasks _ List.mem_cons_self) h other hother
      exact ⟨last, by rw [List.mapM_cons, SessionM.exec_bind_error hlast]⟩
  | haltsLater head tail ih =>
      obtain ⟨hhead, hrest⟩ := List.forall_mem_cons.1 hasks
      obtain ⟨next, hnext⟩ := head.2 head.1 hhead h other hother
      have hbetween := h.of_exec hreads hhead head.1
      obtain ⟨last, hlast⟩ := ih hrest hbetween (hother.of_exec hreads hhead hnext)
      refine ⟨last, ?_⟩
      rw [List.mapM_cons, SessionM.exec_bind_ok hnext, SessionM.exec_bind_error hlast]
  | cons head tail ih =>
      obtain ⟨hhead, hrest⟩ := List.forall_mem_cons.1 hasks
      obtain ⟨next, hnext⟩ := head.2 head.1 hhead h other hother
      have hbetween := h.of_exec hreads hhead head.1
      obtain ⟨last, hlast⟩ := ih hrest hbetween (hother.of_exec hreads hhead hnext)
      refine ⟨last, ?_⟩
      rw [List.mapM_cons, SessionM.exec_bind_ok hnext, SessionM.exec_bind_ok hlast,
        SessionM.exec_pure]

/-- A file that both sessions open is loaded alike, and its imports end alike. -/
theorem exists_exec_of_opens (hreads : compiler.ReadsAlways source) {pathname : Text}
    {loaded : LoadedFile} {opened : Session}
    {outcome : Except Halt (List (Dependency CompiledFile))}
    (houtlook : trace.outlook reference session.compiled = .opens pathname)
    (hload : (compiler.loadFile pathname).exec session = (.ok loaded, opened))
    (hruns : compiler.ImportRuns (compiler.EndsAlike source entries)
      (trace ++ [⟨pathname, loaded.scope⟩]) loaded.dependencies opened outcome after)
    (hasks : Asks compiler.config source entries trace reference)
    (h : ReadyFor compiler.config source entries trace session)
    (hother : ReadyFor compiler.config source entries trace other)
    (hthere : trace.outlook reference other.compiled = .opens pathname) :
    ∃ next last, (compiler.loadFile pathname).exec other = (.ok loaded, next) ∧
      (loaded.dependencies.mapM (compiler.compileReference
        (trace ++ [⟨pathname, loaded.scope⟩]))).exec next = (outcome, last) := by
  obtain ⟨next, -, hnext⟩ :=
    exec_loadFile_alike hreads h.invariant.scopes hother.invariant.scopes hload
  obtain ⟨-, -, hrequired⟩ := invariant_loadFile hreads.toReads houtlook hload hasks h.invariant
  have hopened := h.of_load hreads.toReads hasks houtlook hload
  have hopened' := hother.of_load hreads.toReads hasks hthere hnext
  obtain ⟨last, hlast⟩ :=
    endsAlike_importRuns hreads.toReads hruns hrequired hopened hopened'
  exact ⟨next, last, hnext, hlast⟩

/-- A compile that opens its file ends alike where the other session opens it as well: the other one
may have it compiled instead. -/
theorem endsAlike_of_opens (hunversioned : Unversioned compiler.config source)
    (hreads : compiler.ReadsAlways source) {pathname : Text}
    {outcome : Except Halt (Dependency CompiledFile)}
    (houtlook : trace.outlook reference session.compiled = .opens pathname)
    (hopens : Asks compiler.config source entries trace reference →
      ReadyFor compiler.config source entries trace session →
      ∀ other, ReadyFor compiler.config source entries trace other →
        trace.outlook reference other.compiled = .opens pathname →
          ∃ last, (compiler.compileReference trace reference).exec other = (outcome, last)) :
    compiler.EndsAlike source entries trace reference session outcome after := by
  intro hexec hasks h other hother
  obtain ⟨htarget, -, -⟩ := Trace.outlook_eq_opens_iff.1 houtlook
  rcases hget : other.compiled.get? pathname with _ | file
  · exact hopens hasks h other hother (Trace.outlook_eq_opens_of_absent houtlook hget)
  · obtain rfl := hother.invariant.pathname_eq hget
    have hthere : trace.outlook reference other.compiled = .settled (.module file) :=
      Trace.outlook_eq_settled_iff.2 (.inr ⟨_, _, htarget, hget, rfl⟩)
    obtain rfl :=
      outcome_of_stored hunversioned hreads hexec hasks h.invariant hother htarget hget
    exact ⟨other, by rw [exec_compileReference hreads.complete, hthere]⟩

/-- Every compile ends alike on two sessions on which it may go on. -/
theorem endsAlike_compileReference (hunversioned : Unversioned compiler.config source)
    (hreads : compiler.ReadsAlways source) {outcome : Except Halt (Dependency CompiledFile)}
    (hexec : (compiler.compileReference trace reference).exec session = (outcome, after)) :
    compiler.EndsAlike source entries trace reference session outcome after := by
  have hcomplete := hreads.complete
  refine compileReference_induct hcomplete ?refused ?settled ?unloaded ?abandoned ?published hexec
  case refused =>
    intro trace reference session error houtlook _ _ h other hother
    have hsame := h.outlook_eq_refused hother houtlook
    exact ⟨other, by rw [exec_compileReference hcomplete, hsame]⟩
  case settled =>
    intro trace reference session dependency houtlook _ hasks h other hother
    -- what this session has compiled, the other one may still have to compile
    rcases Trace.outlook_eq_settled_iff.1 houtlook with
      ⟨htarget, rfl⟩ | ⟨pathname, file, htarget, hget, rfl⟩
    · have hthere : trace.outlook reference other.compiled = .settled (.absent reference) :=
        Trace.outlook_eq_settled_iff.2 (.inl ⟨htarget, rfl⟩)
      exact ⟨other, by rw [exec_compileReference hcomplete, hthere]⟩
    · obtain rfl := h.invariant.pathname_eq hget
      rcases hother' : (compiler.compileReference trace reference).exec other with ⟨outcome, last⟩
      obtain rfl :=
        outcome_of_stored hunversioned hreads hother' hasks hother.invariant h htarget hget
      exact ⟨last, rfl⟩
  case unloaded =>
    intro trace reference session pathname halt after houtlook hload
    refine endsAlike_of_opens hunversioned hreads houtlook fun _ h other hother hthere => ?_
    obtain ⟨last, -, hlast⟩ :=
      exec_loadFile_alike hreads h.invariant.scopes hother.invariant.scopes hload
    exact ⟨last, exec_of_unloaded hcomplete hthere hlast⟩
  case abandoned =>
    intro trace reference session pathname loaded opened halt after houtlook hload hruns _
    refine endsAlike_of_opens hunversioned hreads houtlook fun hasks h other hother hthere => ?_
    obtain ⟨next, last, hnext, hlast⟩ :=
      exists_exec_of_opens hreads houtlook hload hruns hasks h hother hthere
    exact ⟨last, exec_of_abandoned hcomplete hthere hnext hlast⟩
  case published =>
    intro trace reference session pathname loaded opened children between houtlook hload hruns _
    refine endsAlike_of_opens hunversioned hreads houtlook fun hasks h other hother hthere => ?_
    obtain ⟨next, last, hnext, hlast⟩ :=
      exists_exec_of_opens hreads houtlook hload hruns hasks h hother hthere
    exact ⟨_, exec_of_published hcomplete hthere hnext hlast⟩

/-! ## Compiles of entries -/

/-- Where no package descriptor names a version: whatever steps a compiler of a fixed set of files
has performed, a compile of an entry ends with the result or the error that it has on a new
compiler. -/
theorem compile_independent (config : Config) (files failures : Table Text)
    (hunversioned : Unversioned config (Loader.readFiles files failures)) (steps : List Step)
    (entry : Text) :
    let compiler := ofFiles config files failures
    ∃ answer : Except CompileError (Option CompiledModule),
      ((compiler.compile entry).exec .initial).1 = answer.mapError .failed ∧
      ((compiler.compile entry).exec (compiler.after steps)).1 = answer.mapError .failed := by
  intro compiler
  have hreads := readsAlways_ofFiles config files failures
  -- no file is in the middle of its compile where an entry is compiled
  have hready : ∀ session : Session,
      session.Invariant config (Loader.readFiles files failures)
        (entry :: steps.flatMap Step.entries) →
      ReadyFor config (Loader.readFiles files failures) (entry :: steps.flatMap Step.entries) []
        session :=
    fun session h => ⟨h, by simp [Trace.pathnames]⟩
  have hinitial := hready .initial (Session.invariant_initial _ _ _)
  have hafter := hready (compiler.after steps) (invariant_after hreads.toReads
    (List.subset_cons_self entry (steps.flatMap Step.entries)))
  obtain ⟨answer, hanswer⟩ := answers_compile hreads.answers hreads.complete entry .initial
  refine ⟨answer, hanswer, ?_⟩
  rw [← hanswer]
  rcases hexec : (compiler.compileReference [] (entryPathname compiler.config entry)).exec .initial
    with ⟨outcome, last⟩
  obtain ⟨other, hother⟩ := endsAlike_compileReference hunversioned hreads hexec hexec
    (.entry List.mem_cons_self) hinitial (compiler.after steps) hafter
  exact exec_compile_fst_congr hexec hother

/-- A descriptor that names a path without a version, and an entry above two files that use it. -/
def aliasedFiles : Table Text := .ofList [
  ("/package.json", "\x7b\"alias\": \x7b\"lib\": \"vendor/lib\"\x7d\x7d"),
  ("/main.js", "require('#shared'); require('#other');"),
  ("/shared.js", "require('lib');"),
  ("/other.js", "require('lib'); require('#shared');"),
  ("/vendor/lib.js", "")]

theorem unversioned_aliasedFiles :
    Unversioned .standard (Loader.readFiles aliasedFiles .empty) :=
  unversioned_readFiles (by decide +kernel)

theorem compile_independent_aliasedFiles :
    Unversioned .standard (Loader.readFiles aliasedFiles .empty) ∧
    ∃ result after,
      ((ofFiles .standard aliasedFiles .empty).compile "#main").exec
        ((ofFiles .standard aliasedFiles .empty).after
          [.compile "#shared", .compileAnswering 3 "#main"]) = (.ok (some result), after) ∧
      result.file.flattened =
        ["/vendor/lib.js".toList, "/shared.js".toList, "/other.js".toList] := by
  refine ⟨unversioned_aliasedFiles, ?_⟩
  obtain ⟨answer, hnew, hafter⟩ := compile_independent .standard aliasedFiles .empty
    unversioned_aliasedFiles [.compile "#shared", .compileAnswering 3 "#main"] "#main"
  have hflattened : (((ofFiles .standard aliasedFiles .empty).compile "#main").exec
      .initial).1.toOption.join.map (·.file.flattened) =
      some ["/vendor/lib.js".toList, "/shared.js".toList, "/other.js".toList] := by
    decide +kernel
  obtain ⟨result, hresult, hvalue⟩ := Option.map_eq_some_iff.1 hflattened
  rw [hnew, ← hafter] at hresult
  obtain ⟨after, hexec⟩ := exec_eq_of_toOption_join hresult
  exact ⟨result, after, hexec, hvalue⟩

end Compiler

end ModuleCompiler
