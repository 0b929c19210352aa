import ModuleCompiler.Proofs.Cache.Invariant
import ModuleCompiler.Proofs.Compile.Failure
import ModuleCompiler.Proofs.Compile.Nesting
import ModuleCompiler.Proofs.Session.Log

/-!
# What a compile loads

A compile asks for no module twice. When it ends with an answer, the modules it has asked for are
the files it has compiled. When it fails, those that are not compiled are the files it was in the
middle of: one chain of imports, from what the entry means down to the file that could not be
compiled.

`Session.Gains` ties the modules asked for between two sessions to the files compiled between them,
and `LeavesOpen` says which of these modules are not compiled at the end. `Accounts` is both for one
compile; it has one lemma for each way in which a compile ends, and `accounts_compileReference` puts
them together.
-/

namespace ModuleCompiler

namespace Session

/-- Those of some pathnames that are not compiled. -/
def uncompiled (session : Session) (pathnames : List Text) : List Text :=
  pathnames.filter (!session.compiled.contains ·)

variable {trace : Trace} {session between after : Session} {modules more : List Text}
  {pathname : Text}

/-- Nothing is left open when all that was asked for is compiled. -/
theorem uncompiled_eq_nil_iff :
    session.uncompiled modules = [] ↔
      ∀ pathname ∈ modules, session.compiled.get? pathname ≠ none := by
  simp [uncompiled, Table.contains, Option.ne_none_iff_isSome]

/-- A file that is not compiled is left open. -/
theorem uncompiled_cons_of_absent (h : session.compiled.get? pathname = none) :
    session.uncompiled (pathname :: modules) = pathname :: session.uncompiled modules := by
  rw [uncompiled, List.filter_cons_of_pos (by simp [Table.contains, h])]
  rfl

/-- Once a file is stored, all that was asked for is compiled if all but the file was. -/
theorem uncompiled_insert {pathname : Text} {file : CompiledFile}
    (hclosed : session.uncompiled modules = []) :
    uncompiled { session with compiled := session.compiled.insert pathname file }
      (pathname :: modules) = [] := by
  rw [uncompiled_eq_nil_iff] at hclosed ⊢
  intro other hmem
  show (session.compiled.insert pathname file).get? other ≠ none
  rw [Table.get?_insert]
  by_cases heq : other = pathname
  · simp [heq]
  · rw [if_neg heq]
    exact hclosed other ((List.mem_cons.1 hmem).resolve_left heq)

/-- Between two sessions these modules were asked for, each once; none of them was in the trace or
compiled before, and everything compiled since is among them. -/
structure Gains (trace : Trace) (session : Session) (modules : List Text) (after : Session) :
    Prop where
  logs : session.Logs modules after
  le : session.compiled ≤ after.compiled
  nodup : modules.Nodup
  not_mem : ∀ pathname ∈ modules, pathname ∉ trace.pathnames
  get?_eq_none : ∀ pathname ∈ modules, session.compiled.get? pathname = none
  mem : ∀ pathname, session.compiled.get? pathname = none →
    after.compiled.get? pathname ≠ none → pathname ∈ modules

namespace Gains

/-- Where nothing happens, nothing is gained. -/
theorem refl (trace : Trace) (session : Session) : session.Gains trace [] session where
  logs := logs_of_requests_eq rfl
  le := Table.le_refl _
  nodup := List.nodup_nil
  not_mem := by simp
  get?_eq_none := by simp
  mem pathname hnone hsome := absurd hnone hsome

/-- One compile after another that has left nothing open: the second asks for no module of the
first, since these are compiled by then. -/
theorem trans (h : session.Gains trace modules between) (h' : between.Gains trace more after)
    (hclosed : between.uncompiled modules = []) :
    session.Gains trace (modules ++ more) after where
  logs := h.logs.trans h'.logs
  le := Table.le_trans h.le h'.le
  nodup := by
    rw [List.nodup_append]
    refine ⟨h.nodup, h'.nodup, ?_⟩
    rintro pathname hmem _ hmore rfl
    exact uncompiled_eq_nil_iff.1 hclosed pathname hmem (h'.get?_eq_none pathname hmore)
  not_mem pathname hmem := by
    rcases List.mem_append.1 hmem with hmem | hmore
    · exact h.not_mem pathname hmem
    · exact h'.not_mem pathname hmore
  get?_eq_none pathname hmem := by
    rcases List.mem_append.1 hmem with hmem | hmore
    · exact h.get?_eq_none pathname hmem
    · exact Table.get?_eq_none_of_le h.le (h'.get?_eq_none pathname hmore)
  mem pathname hnone hsome := by
    rw [List.mem_append]
    by_cases hbetween : between.compiled.get? pathname = none
    · exact .inr (h'.mem pathname hbetween hsome)
    · exact .inl (h.mem pathname hnone hbetween)

/-- What is left open after two compiles is left open by the second. -/
theorem uncompiled_append (h' : between.Gains trace more after)
    (hclosed : between.uncompiled modules = []) :
    after.uncompiled (modules ++ more) = after.uncompiled more := by
  have hnil : after.uncompiled modules = [] := by
    rw [uncompiled_eq_nil_iff] at hclosed ⊢
    exact fun pathname hmem hnone =>
      hclosed pathname hmem (Table.get?_eq_none_of_le h'.le hnone)
  rw [uncompiled, List.filter_append]
  show after.uncompiled modules ++ _ = _
  rw [hnil, List.nil_append]
  rfl

/-- A file that is loaded first is asked for first. It is in the trace of its imports, so none of
them asks for it again. -/
theorem of_load {opened : Session} {scope : Scope}
    (h : opened.Gains (trace ++ [⟨pathname, scope⟩]) modules after)
    (hlogs : session.Logs [pathname] opened) (hcompiled : opened.compiled = session.compiled)
    (hnone : session.compiled.get? pathname = none) (hnot : pathname ∉ trace.pathnames) :
    session.Gains trace (pathname :: modules) after := by
  -- the imports ask for nothing that is in their trace
  have hinner : ∀ other ∈ modules, other ∉ trace.pathnames ∧ other ≠ pathname := by
    intro other hmem
    have hother := h.not_mem other hmem
    rw [Trace.pathnames_append_frame, List.mem_append, List.mem_singleton, not_or] at hother
    exact hother
  refine ⟨hlogs.trans h.logs, hcompiled ▸ h.le, ?_, ?_, ?_, ?_⟩
  · exact List.nodup_cons.2 ⟨fun hmem => (hinner pathname hmem).2 rfl, h.nodup⟩
  · intro other hmem
    rcases List.mem_cons.1 hmem with rfl | hmem
    · exact hnot
    · exact (hinner other hmem).1
  · intro other hmem
    rcases List.mem_cons.1 hmem with rfl | hmem
    · exact hnone
    · exact hcompiled ▸ h.get?_eq_none other hmem
  · intro other hother hsome
    exact List.mem_cons_of_mem _ (h.mem other (hcompiled ▸ hother) hsome)

/-- A file that was asked for may be stored. -/
theorem insert {file : CompiledFile} (h : session.Gains trace modules after)
    (hmem : file.pathname ∈ modules) (hnone : after.compiled.get? file.pathname = none) :
    session.Gains trace modules
      { after with compiled := after.compiled.insert file.pathname file } := by
  refine ⟨h.logs, Table.le_trans h.le (Table.le_insert file hnone), h.nodup, h.not_mem,
    h.get?_eq_none, ?_⟩
  intro other hother hsome
  rw [Table.get?_insert] at hsome
  by_cases heq : other = file.pathname
  · rw [heq]
    exact hmem
  · rw [if_neg heq] at hsome
    exact h.mem other hother hsome

end Gains

end Session

/-- What a compile of a reference under a trace leaves open, by how it ends: nothing after an
answer, and after an error the files of a chain of imports down to the one that failed. -/
inductive LeavesOpen (config : Config) (source : Text → Reading) (trace : Trace)
    (reference : Text) : Except Halt (Dependency CompiledFile) → List Text → Prop
  | answered (dependency : Dependency CompiledFile) :
      LeavesOpen config source trace reference (.ok dependency) []
  | failed {error : CompileError} {frames : Trace} {last : Text} {opened : List Text}
      (descends : Descends config source trace reference frames last)
      (fails : FailsAt config source (trace ++ frames) last opened error) :
      LeavesOpen config source trace reference (.error (.failed error))
        (frames.pathnames ++ opened)

/-- An answer leaves nothing open. -/
theorem LeavesOpen.eq_nil_of_ok {config : Config} {source : Text → Reading} {trace : Trace}
    {reference : Text} {dependency : Dependency CompiledFile} {opened : List Text}
    (h : LeavesOpen config source trace reference (.ok dependency) opened) : opened = [] := by
  cases h
  rfl

/-- A failure below a file that settles is a failure of the file. -/
theorem LeavesOpen.down {config : Config} {source : Text → Reading} {trace : Trace}
    {reference pathname required : Text} {loaded : Compiler.LoadedFile} {halt : Halt}
    {opened : List Text} (htarget : trace.target reference = .ok (some pathname))
    (hsettled : settledFile config source pathname = .ok loaded)
    (hmem : required ∈ loaded.dependencies)
    (h : LeavesOpen config source (trace ++ [⟨pathname, loaded.scope⟩]) required (.error halt)
      opened) :
    LeavesOpen config source trace reference (.error halt) (pathname :: opened) := by
  cases h with
  | @failed error frames last opened descends fails =>
      rw [List.append_assoc] at fails
      exact .failed (.down htarget hsettled hmem descends) fails

namespace Compiler

variable {compiler : Compiler} {source : Text → Reading} {entries : List Text} {trace : Trace}
  {reference : Text} {session after : Session}

/-! ## Loading a file -/

/-- The walk over the directories asks for descriptors only. -/
theorem logging_nearestScope (hreads : compiler.ReadsAlways source) (dirs : List Text) :
    SessionM.Logging [] (compiler.nearestScope dirs) := by
  induction dirs with
  | nil => exact SessionM.logging_pure _
  | cons dir above ih =>
      rw [nearestScope]
      refine (SessionM.logging_request hreads.answers .descriptor _).bind ?_
      rintro (_ | text)
      · exact ih
      · exact SessionM.logging_ofExcept _

/-- So does the look-up of a scope. -/
theorem logging_scopeOf (hreads : compiler.ReadsAlways source) (dir : Text) :
    SessionM.Logging [] (compiler.scopeOf dir) := by
  rw [scopeOf]
  refine SessionM.logging_get.bind fun session => ?_
  rcases session.scopes.get? dir with _ | scope
  · exact (logging_nearestScope hreads _).bind fun scope _ => Session.logs_of_requests_eq rfl
  · exact SessionM.logging_pure _

/-- Loading a file asks for one module, the file itself. -/
theorem logging_loadFile (hreads : compiler.ReadsAlways source) (pathname : Text) :
    SessionM.Logging [pathname] (compiler.loadFile pathname) := by
  rw [loadFile]
  refine (SessionM.logging_request hreads.answers .module pathname).bind ?_
  rintro (_ | text)
  · exact SessionM.logging_throw _
  · refine (logging_scopeOf hreads _).bind fun scope => ?_
    exact (SessionM.logging_ofExcept _).bind fun settled => SessionM.logging_pure _

/-! ## One compile -/

/-- A compile that comes up gains what it asks for, and leaves open what it is in the middle of. -/
def Accounts (compiler : Compiler) (source : Text → Reading) (entries : List Text)
    (trace : Trace) (reference : Text) (session : Session)
    (outcome : Except Halt (Dependency CompiledFile)) (after : Session) : Prop :=
  Asks compiler.config source entries trace reference →
  session.Invariant compiler.config source entries →
    ∃ modules, session.Gains trace modules after ∧
      LeavesOpen compiler.config source trace reference outcome (after.uncompiled modules)

/-- The imports of a file leave nothing open when all are answered, and otherwise what the last of
them leaves open. -/
theorem accounts_importRuns (hreads : compiler.Reads source) {required : List Text}
    {outcome : Except Halt (List (Dependency CompiledFile))}
    (hruns : compiler.ImportRuns (compiler.Accounts source entries) trace required session
      outcome after)
    (hasks : ∀ reference ∈ required, Asks compiler.config source entries trace reference)
    (h : session.Invariant compiler.config source entries) :
    ∃ modules, session.Gains trace modules after ∧
      (∀ children, outcome = .ok children → after.uncompiled modules = []) ∧
      ∀ halt, outcome = .error halt → ∃ reference ∈ required,
        LeavesOpen compiler.config source trace reference (.error halt)
          (after.uncompiled modules) := by
  -- along the run: an import that has answered has left nothing open, so the next one asks for
  -- other modules
  induction hruns with
  | nil => exact ⟨[], .refl _ _, fun _ _ => rfl, by simp⟩
  | @halts reference rest session halt after head =>
      obtain ⟨modules, hgains, hopen⟩ := head.2 (hasks _ List.mem_cons_self) h
      refine ⟨modules, hgains, by simp, fun other hother => ?_⟩
      obtain rfl := Except.error.inj hother
      exact ⟨reference, List.mem_cons_self, hopen⟩
  | haltsLater head tail ih =>
      obtain ⟨hhead, hrest⟩ := List.forall_mem_cons.1 hasks
      have hkept := (establishes_compileReference hreads head.1 hhead h).1
      obtain ⟨modules, hgains, hopen⟩ := head.2 hhead h
      obtain ⟨more, hmore, -, herror⟩ := ih hrest hkept
      have hclosed := hopen.eq_nil_of_ok
      refine ⟨modules ++ more, hgains.trans hmore hclosed, by simp, fun other hother => ?_⟩
      obtain ⟨last, hmem, hlast⟩ := herror other hother
      rw [hmore.uncompiled_append hclosed]
      exact ⟨last, List.mem_cons_of_mem _ hmem, hlast⟩
  | @cons _ _ _ _ _ children _ head tail ih =>
      obtain ⟨hhead, hrest⟩ := List.forall_mem_cons.1 hasks
      have hkept := (establishes_compileReference hreads head.1 hhead h).1
      obtain ⟨modules, hgains, hopen⟩ := head.2 hhead h
      obtain ⟨more, hmore, hall, -⟩ := ih hrest hkept
      have hclosed := hopen.eq_nil_of_ok
      refine ⟨modules ++ more, hgains.trans hmore hclosed, fun _ _ => ?_, by simp⟩
      rw [hmore.uncompiled_append hclosed]
      exact hall children rfl

section Opens

variable {pathname : Text} {loaded : LoadedFile} {opened : Session} {halt : Halt}

/-- A file that cannot be loaded is left open, and nothing else: it was asked for, and the compile
ends with its failure. -/
theorem accounts_of_unloaded (hreads : compiler.ReadsAlways source)
    (houtlook : trace.outlook reference session.compiled = .opens pathname)
    (hload : (compiler.loadFile pathname).exec session = (.error halt, after)) :
    compiler.Accounts source entries trace reference session (.error halt) after := by
  intro _ h
  obtain ⟨htarget, hnone, hnot⟩ := Trace.outlook_eq_opens_iff.1 houtlook
  have hlogs := (logging_loadFile hreads pathname).of_exec hload
  have hcompiled := (leavesCompiled_loadFile compiler pathname).of_exec hload
  have hafter : after.compiled.get? pathname = none := by rw [hcompiled, hnone]
  obtain ⟨-, ⟨error, hsettled, rfl⟩ | ⟨before, asked, hpending, -⟩⟩ :=
    (computes_loadFile hreads.toReads pathname).eq_error h.scopes hload
  · -- nothing was asked for but the file, which is not compiled
    have hfails : FailsAt compiler.config source (trace ++ []) reference [pathname] error := by
      rw [List.append_nil]
      exact .unsettled htarget hsettled
    have hnothing := Session.Gains.refl (trace ++ [⟨pathname, .empty⟩]) after
    refine ⟨[pathname], hnothing.of_load hlogs hcompiled hnone hnot, ?_⟩
    rw [Session.uncompiled_cons_of_absent hafter]
    exact .failed .here hfails
  · -- a loader that always answers abandons no compile
    exact absurd hpending (hreads.answers before asked)

/-- A file whose imports halt stays open above the import that failed. -/
theorem accounts_of_abandoned (hreads : compiler.ReadsAlways source)
    (houtlook : trace.outlook reference session.compiled = .opens pathname)
    (hload : (compiler.loadFile pathname).exec session = (.ok loaded, opened))
    (hruns : compiler.ImportRuns (compiler.Accounts source entries)
      (trace ++ [⟨pathname, loaded.scope⟩]) loaded.dependencies opened (.error halt) after)
    (hafter : after.compiled.get? pathname = none) :
    compiler.Accounts source entries trace reference session (.error halt) after := by
  intro hasks h
  obtain ⟨htarget, hnone, hnot⟩ := Trace.outlook_eq_opens_iff.1 houtlook
  obtain ⟨hopened, hcompiled, hrequired⟩ :=
    invariant_loadFile hreads.toReads houtlook hload hasks h
  have hlogs := (logging_loadFile hreads pathname).of_exec hload
  have hsettled := ((computes_loadFile hreads.toReads pathname).eq_ok h.scopes hload).2
  obtain ⟨modules, hgains, -, herror⟩ := accounts_importRuns hreads.toReads hruns hrequired hopened
  obtain ⟨required, hmem, hopen⟩ := herror halt rfl
  refine ⟨pathname :: modules, hgains.of_load hlogs hcompiled hnone hnot, ?_⟩
  rw [Session.uncompiled_cons_of_absent hafter]
  exact hopen.down htarget hsettled hmem

/-- A file that is published closes last, after all of its imports. -/
theorem accounts_of_published (hreads : compiler.ReadsAlways source)
    {children : List (Dependency CompiledFile)} {between : Session}
    (houtlook : trace.outlook reference session.compiled = .opens pathname)
    (hload : (compiler.loadFile pathname).exec session = (.ok loaded, opened))
    (hruns : compiler.ImportRuns (compiler.Accounts source entries)
      (trace ++ [⟨pathname, loaded.scope⟩]) loaded.dependencies opened (.ok children) between)
    (hbetween : between.compiled.get? pathname = none) :
    compiler.Accounts source entries trace reference session
      (.ok (.module (compiler.assemble loaded children)))
      { between with
        compiled := between.compiled.insert pathname (compiler.assemble loaded children) } := by
  intro hasks h
  obtain ⟨-, hnone, hnot⟩ := Trace.outlook_eq_opens_iff.1 houtlook
  obtain ⟨hopened, hcompiled, hrequired⟩ :=
    invariant_loadFile hreads.toReads houtlook hload hasks h
  have hlogs := (logging_loadFile hreads pathname).of_exec hload
  obtain ⟨modules, hgains, hall, -⟩ := accounts_importRuns hreads.toReads hruns hrequired hopened
  obtain ⟨rfl, -⟩ := of_exec_loadFile hload
  have habsent : between.compiled.get? (compiler.assemble loaded children).pathname = none :=
    hbetween
  refine ⟨loaded.pathname :: modules, ?_, ?_⟩
  · exact (hgains.of_load hlogs hcompiled hnone hnot).insert List.mem_cons_self habsent
  · have hclosed : Session.uncompiled { between with
        compiled := between.compiled.insert loaded.pathname (compiler.assemble loaded children) }
        (loaded.pathname :: modules) = [] :=
      Session.uncompiled_insert (hall children rfl)
    rw [hclosed]
    exact .answered _

end Opens

/-- Every compile accounts for what it asks for, however it ends. -/
theorem accounts_compileReference (hreads : compiler.ReadsAlways source)
    {outcome : Except Halt (Dependency CompiledFile)}
    (hexec : (compiler.compileReference trace reference).exec session = (outcome, after)) :
    compiler.Accounts source entries trace reference session outcome after := by
  refine compileReference_induct hreads.complete ?refused ?settled ?unloaded ?abandoned ?published
    hexec
  case refused =>
    intro trace reference session error houtlook _ _
    have hfails : FailsAt compiler.config source (trace ++ []) reference [] error := by
      rw [List.append_nil]
      exact failsAt_of_outlook houtlook
    exact ⟨[], .refl _ _, .failed .here hfails⟩
  case settled =>
    intro trace reference session dependency _ _ _
    exact ⟨[], .refl _ _, .answered dependency⟩
  case unloaded =>
    intro trace reference session pathname halt after houtlook hload
    exact accounts_of_unloaded hreads houtlook hload
  case abandoned =>
    intro trace reference session pathname loaded opened halt after houtlook hload hruns hafter
    exact accounts_of_abandoned hreads houtlook hload hruns hafter
  case published =>
    intro trace reference session pathname loaded opened children between houtlook hload hruns
      hbetween
    exact accounts_of_published hreads houtlook hload hruns hbetween

/-! ## Compiles of entries -/

/-- A compile of an entry gains what it asks for; it leaves nothing open when it has a result, and
when it fails what the compile of its pathname leaves open. -/
theorem accounts_compile (hreads : compiler.ReadsAlways source) {entry : Text}
    {outcome : Except Halt (Option CompiledModule)} (hentry : entry ∈ entries)
    (h : session.Invariant compiler.config source entries)
    (hexec : (compiler.compile entry).exec session = (outcome, after)) :
    ∃ modules, session.Gains [] modules after ∧
      (∀ result, outcome = .ok result → after.uncompiled modules = []) ∧
      ∀ halt, outcome = .error halt → LeavesOpen compiler.config source []
        (entryPathname compiler.config entry) (.error halt) (after.uncompiled modules) := by
  rcases hcompile : (compiler.compileReference [] (entryPathname compiler.config entry)).exec
    session with ⟨halt | dependency, last⟩
  · obtain ⟨modules, hgains, hopen⟩ := accounts_compileReference hreads hcompile (.entry hentry) h
    rw [exec_compile, hcompile] at hexec
    obtain ⟨rfl, rfl⟩ := Prod.mk.inj hexec
    refine ⟨modules, hgains, by simp, fun other hother => ?_⟩
    obtain rfl := Except.error.inj hother
    exact hopen
  · obtain ⟨modules, hgains, hopen⟩ := accounts_compileReference hreads hcompile (.entry hentry) h
    have hanswered : ∃ result, (compiler.compile entry).exec session = (.ok result, last) := by
      rw [exec_compile, hcompile]
      cases dependency <;> exact ⟨_, rfl⟩
    obtain ⟨result, hresult⟩ := hanswered
    rw [hresult] at hexec
    obtain ⟨rfl, rfl⟩ := Prod.mk.inj hexec
    exact ⟨modules, hgains, fun _ _ => hopen.eq_nil_of_ok, by simp⟩

/-- Whatever steps a compiler of a fixed set of files has performed, a compile of an entry asks for
no module twice. If it answers, it has asked for exactly the files that it has added to the compiled
ones. If it fails, the modules that it asked for and that are not compiled are the files of one
chain of imports from the entry, in the order of the chain, down to the file that has a failing
reference or does not settle itself. -/
theorem loads_accounted (config : Config) (files failures : Table Text) (steps : List Step)
    (entry : Text) :
    let compiler := ofFiles config files failures
    let source := Loader.readFiles files failures
    let session := compiler.after steps
    let after := ((compiler.compile entry).exec session).2
    let modules := after.modulesSince session
    modules.Nodup ∧
      match ((compiler.compile entry).exec session).1 with
      | .ok _ => ∀ pathname, pathname ∈ modules ↔
          session.compiled.get? pathname = none ∧ after.compiled.get? pathname ≠ none
      | .error halt => ∃ error frames last opened, halt = .failed error ∧
          Descends config source [] (entryPathname config entry) frames last ∧
          FailsAt config source frames last opened error ∧
          after.uncompiled modules = frames.pathnames ++ opened := by
  intro compiler source session after modules
  have hreads := readsAlways_ofFiles config files failures
  have h := invariant_after hreads.toReads
    (List.subset_cons_self entry (steps.flatMap Step.entries))
  obtain ⟨asked, hgains, hanswered, hfailed⟩ :=
    accounts_compile hreads List.mem_cons_self h
      (show _ = (((compiler.compile entry).exec session).1, after) from rfl)
  have hmodules : modules = asked := hgains.logs.modulesSince_eq
  rw [hmodules]
  refine ⟨hgains.nodup, ?_⟩
  rcases houtcome : ((compiler.compile entry).exec session).1 with halt | result
  · have hopen := hfailed halt houtcome
    generalize after.uncompiled asked = opened at hopen
    cases hopen with
    | failed descends fails => exact ⟨_, _, _, _, rfl, descends, fails, rfl⟩
  · have hclosed := Session.uncompiled_eq_nil_iff.1 (hanswered result houtcome)
    intro pathname
    constructor
    · exact fun hmem => ⟨hgains.get?_eq_none pathname hmem, hclosed pathname hmem⟩
    · exact fun ⟨hnone, hsome⟩ => hgains.mem pathname hnone hsome

end Compiler

end ModuleCompiler
