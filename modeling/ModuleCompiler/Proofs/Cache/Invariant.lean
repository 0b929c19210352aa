import ModuleCompiler.Proofs.Compile.Chain
import ModuleCompiler.Proofs.Compile.Steps

/-!
# The compiled files of a session

`Session.Invariant` holds of every session of a compiler whose files do not change. The compiled
files are closed: what a file requires is stored as well, and it is the very file that the requiring
one carries. So no file has its own pathname below it, although no compile checks this where it
finds a file that is compiled already.

Only publishing changes the compiled files (`Invariant.insert`); every other change is covered by
`Invariant.of_compiled_eq`. What one compile makes of the invariant is `Establishes`, shown by
induction over the compile, and `invariant_after` carries it over any steps.
-/

namespace ModuleCompiler

/-- The file of a dependency is stored under its pathname. -/
def Dependency.StoredIn (table : Table CompiledFile) : Dependency CompiledFile → Prop
  | .module file => table.get? file.pathname = some file
  | .absent _ => True

/-- What is stored stays stored in an extended table. -/
theorem Dependency.StoredIn.mono {table extended : Table CompiledFile}
    {dependency : Dependency CompiledFile} (h : dependency.StoredIn table)
    (hle : table ≤ extended) : dependency.StoredIn extended := by
  cases dependency with
  | module file => exact hle _ _ h
  | absent reference => exact trivial

namespace Session

/-- What a session holds after compiles of these entries when the files do not change. -/
structure Invariant (config : Config) (source : Text → Reading) (entries : List Text)
    (session : Session) : Prop where
  scopes : session.ScopesFrom config source
  pathname_eq : ∀ {pathname file},
    session.compiled.get? pathname = some file → file.pathname = pathname
  closed : ∀ {pathname file required}, session.compiled.get? pathname = some file →
    file.Requires required → session.compiled.get? required.pathname = some required
  compiledAlong : ∀ {pathname file}, session.compiled.get? pathname = some file →
    ∃ trace, file.CompiledAlong config source entries trace

variable {config : Config} {source : Text → Reading} {entries : List Text} {session : Session}
  {file lower : CompiledFile} {pathname : Text}

/-- Nothing is compiled in a new session. -/
theorem invariant_initial (config : Config) (source : Text → Reading) (entries : List Text) :
    Session.initial.Invariant config source entries where
  scopes := scopesFrom_initial config source
  pathname_eq h := by simp [initial] at h
  closed h := by simp [initial] at h
  compiledAlong h := by simp [initial] at h

namespace Invariant

/-- A change that leaves the compiled files and keeps the declared scopes. -/
theorem of_compiled_eq {after : Session} (h : session.Invariant config source entries)
    (hcompiled : after.compiled = session.compiled) (hscopes : after.ScopesFrom config source) :
    after.Invariant config source entries where
  scopes := hscopes
  pathname_eq hget := h.pathname_eq (hcompiled ▸ hget)
  closed hget hrequires := by
    rw [hcompiled] at hget ⊢
    exact h.closed hget hrequires
  compiledAlong hget := h.compiledAlong (hcompiled ▸ hget)

/-- A new file may be stored under its pathname once all that it requires is stored. -/
theorem insert {trace : Trace} (h : session.Invariant config source entries)
    (hnone : session.compiled.get? file.pathname = none)
    (halong : file.CompiledAlong config source entries trace)
    (hstored : ∀ required, file.Requires required →
      session.compiled.get? required.pathname = some required) :
    Invariant config source entries
      { session with compiled := session.compiled.insert file.pathname file } := by
  have hle := Table.le_insert file hnone
  -- the new file is closed by its children, an old one by what was stored before
  refine ⟨h.scopes, ?_, ?_, ?_⟩
  · intro pathname found hget
    rcases Table.of_get?_insert hget with ⟨rfl, rfl⟩ | hold
    · rfl
    · exact h.pathname_eq hold
  · intro pathname found required hget hrequires
    rcases Table.of_get?_insert hget with ⟨-, rfl⟩ | hold
    · exact hle _ _ (hstored required hrequires)
    · exact hle _ _ (h.closed hold hrequires)
  · intro pathname found hget
    rcases Table.of_get?_insert hget with ⟨-, rfl⟩ | hold
    · exact ⟨trace, halong⟩
    · exact h.compiledAlong hold

/-- All that is below a compiled file is compiled. -/
theorem get?_of_dependsOn (h : session.Invariant config source entries)
    (hget : session.compiled.get? pathname = some file) (hdepends : file.DependsOn lower) :
    session.compiled.get? lower.pathname = some lower := by
  induction hdepends with
  | single hrequires => exact h.closed hget hrequires
  | tail _ hrequires ih => exact h.closed ih hrequires

/-- All that a chain from a compiled file leads to is compiled. -/
theorem get?_of_chain {frames : Trace} (h : session.Invariant config source entries)
    (hget : session.compiled.get? file.pathname = some file) (hchain : file.Chain frames lower) :
    session.compiled.get? lower.pathname = some lower := by
  rcases hchain.eq_or_dependsOn with rfl | hdepends
  · exact hget
  · exact h.get?_of_dependsOn hget hdepends

/-- No file below a compiled file has the pathname of that file: it would be the file itself, and
files get smaller on the way down. -/
theorem pathname_ne_of_dependsOn (h : session.Invariant config source entries)
    (hget : session.compiled.get? pathname = some file) (hdepends : file.DependsOn lower) :
    lower.pathname ≠ file.pathname := by
  intro heq
  have hlower := h.get?_of_dependsOn hget hdepends
  rw [heq, h.pathname_eq hget] at hlower
  obtain rfl := Table.eq_of_get?_of_le (Table.le_refl _) hget hlower
  exact absurd hdepends.sizeOf_lt (Nat.lt_irrefl _)

end Invariant

end Session

namespace Compiler

variable {compiler : Compiler} {source : Text → Reading} {entries : List Text} {trace : Trace}
  {reference : Text} {session after : Session}

/-! ## One compile -/

/-- Loading a file that has to be read keeps the invariant and compiles nothing, and the references
of the file come up below it. -/
theorem invariant_loadFile (hreads : compiler.Reads source) {pathname : Text} {loaded : LoadedFile}
    {opened : Session} (houtlook : trace.outlook reference session.compiled = .opens pathname)
    (hload : (compiler.loadFile pathname).exec session = (.ok loaded, opened))
    (hasks : Asks compiler.config source entries trace reference)
    (h : session.Invariant compiler.config source entries) :
    opened.Invariant compiler.config source entries ∧ opened.compiled = session.compiled ∧
      ∀ required ∈ loaded.dependencies,
        Asks compiler.config source entries (trace ++ [⟨pathname, loaded.scope⟩]) required := by
  obtain ⟨htarget, -, -⟩ := Trace.outlook_eq_opens_iff.1 houtlook
  obtain ⟨hscopes, hsettled⟩ := (computes_loadFile hreads pathname).eq_ok h.scopes hload
  have hcompiled := (leavesCompiled_loadFile compiler _).of_exec hload
  refine ⟨h.of_compiled_eq hcompiled hscopes, hcompiled, fun required hmem => ?_⟩
  exact .dependency hasks htarget hsettled hmem

/-- A compile that comes up keeps the invariant; what it answers is what the reference means, and
is stored. -/
def Establishes (compiler : Compiler) (source : Text → Reading) (entries : List Text)
    (trace : Trace) (reference : Text) (session : Session)
    (outcome : Except Halt (Dependency CompiledFile)) (after : Session) : Prop :=
  Asks compiler.config source entries trace reference →
  session.Invariant compiler.config source entries →
    after.Invariant compiler.config source entries ∧
      ∀ dependency, outcome = .ok dependency →
        dependency.Answers trace reference ∧ dependency.StoredIn after.compiled

/-- The imports of a file together keep the invariant, each answered in its place. -/
theorem establishes_importRuns {required : List Text}
    {outcome : Except Halt (List (Dependency CompiledFile))}
    (hruns : compiler.ImportRuns (compiler.Establishes source entries) trace required session
      outcome after)
    (hasks : ∀ reference ∈ required, Asks compiler.config source entries trace reference)
    (h : session.Invariant compiler.config source entries) :
    after.Invariant compiler.config source entries ∧
      ∀ children, outcome = .ok children →
        List.Forall₂ (Dependency.Answers trace) required children ∧
          ∀ child ∈ children, child.StoredIn after.compiled := by
  -- along the run: each import starts from the session that the one before has left
  induction hruns with
  | nil =>
      refine ⟨h, fun children houtcome => ?_⟩
      obtain rfl := Except.ok.inj houtcome
      exact ⟨.nil, by simp⟩
  | halts head =>
      have hhead := head.2 (hasks _ List.mem_cons_self) h
      exact ⟨hhead.1, by simp⟩
  | haltsLater head tail ih =>
      have hhead := head.2 (hasks _ List.mem_cons_self) h
      have htail := ih (fun reference hmem => hasks reference (List.mem_cons_of_mem _ hmem)) hhead.1
      exact ⟨htail.1, by simp⟩
  | @cons reference rest session child between children after head tail ih =>
      have hhead := head.2 (hasks _ List.mem_cons_self) h
      have htail := ih (fun reference hmem => hasks reference (List.mem_cons_of_mem _ hmem)) hhead.1
      refine ⟨htail.1, fun all houtcome => ?_⟩
      obtain rfl := Except.ok.inj houtcome
      obtain ⟨hanswers, hstored⟩ := htail.2 children rfl
      obtain ⟨hanswer, hchild⟩ := hhead.2 child rfl
      refine ⟨.cons hanswer hanswers, ?_⟩
      -- the imports that follow only add to what this one has stored
      have hle : between.compiled ≤ after.compiled := ImportRuns.le tail
      intro other hmem
      rcases List.mem_cons.1 hmem with rfl | hmem
      · exact hchild.mono hle
      · exact hstored other hmem

/-- When every import of a file has been answered, the file that is put together is what the trace
makes of it, and what it requires is stored. -/
theorem compiledAlong_assemble (hreads : compiler.Reads source) {pathname : Text}
    {loaded : LoadedFile} {opened between : Session} {children : List (Dependency CompiledFile)}
    (houtlook : trace.outlook reference session.compiled = .opens pathname)
    (hload : (compiler.loadFile pathname).exec session = (.ok loaded, opened))
    (hruns : compiler.ImportRuns (compiler.Establishes source entries)
      (trace ++ [⟨pathname, loaded.scope⟩]) loaded.dependencies opened (.ok children) between)
    (hasks : Asks compiler.config source entries trace reference)
    (h : session.Invariant compiler.config source entries) :
    between.Invariant compiler.config source entries ∧
      (compiler.assemble loaded children).CompiledAlong compiler.config source entries trace ∧
      ∀ child ∈ children, child.StoredIn between.compiled := by
  obtain ⟨htarget, -, -⟩ := Trace.outlook_eq_opens_iff.1 houtlook
  obtain ⟨hopened, -, hrequired⟩ := invariant_loadFile hreads houtlook hload hasks h
  obtain ⟨-, hsettled⟩ := (computes_loadFile hreads pathname).eq_ok h.scopes hload
  obtain rfl := pathname_of_settledFile hsettled
  obtain ⟨hkept, hchildren⟩ := establishes_importRuns hruns hrequired hopened
  obtain ⟨hanswers, hstored⟩ := hchildren children rfl
  exact ⟨hkept, ⟨⟨reference, hasks, htarget⟩, hsettled, rfl, hanswers, rfl⟩, hstored⟩

/-- Every compile that comes up keeps the invariant, and its answer is the stored file that the
reference means. -/
theorem establishes_compileReference (hreads : compiler.Reads source)
    {outcome : Except Halt (Dependency CompiledFile)}
    (hexec : (compiler.compileReference trace reference).exec session = (outcome, after)) :
    compiler.Establishes source entries trace reference session outcome after := by
  refine compileReference_induct hreads.complete ?refused ?settled ?unloaded ?abandoned ?published
    hexec
  case refused =>
    intro trace reference session error _ _ h
    exact ⟨h, by simp⟩
  case settled =>
    intro trace reference session settled houtlook _ h
    refine ⟨h, fun dependency houtcome => ?_⟩
    obtain rfl := Except.ok.inj houtcome
    -- an absent reference stores nothing, a compiled file is stored already
    rcases Trace.outlook_eq_settled_iff.1 houtlook with
      ⟨htarget, rfl⟩ | ⟨pathname, file, htarget, hget, rfl⟩
    · exact ⟨⟨htarget, rfl⟩, trivial⟩
    · obtain rfl := h.pathname_eq hget
      exact ⟨htarget, hget⟩
  case unloaded =>
    intro trace reference session pathname halt after _ hload _ h
    have hscopes := ((computes_loadFile hreads pathname).eq_error h.scopes hload).1
    have hcompiled := (leavesCompiled_loadFile compiler _).of_exec hload
    exact ⟨h.of_compiled_eq hcompiled hscopes, by simp⟩
  case abandoned =>
    intro trace reference session pathname loaded opened halt after houtlook hload hruns _ hasks h
    obtain ⟨hopened, -, hrequired⟩ := invariant_loadFile hreads houtlook hload hasks h
    exact ⟨(establishes_importRuns hruns hrequired hopened).1, by simp⟩
  case published =>
    intro trace reference session pathname loaded opened children between houtlook hload hruns
      habsent hasks h
    obtain ⟨htarget, -, -⟩ := Trace.outlook_eq_opens_iff.1 houtlook
    obtain ⟨hkept, halong, hstored⟩ :=
      compiledAlong_assemble hreads houtlook hload hruns hasks h
    obtain ⟨rfl, -⟩ := of_exec_loadFile hload
    have hnone : between.compiled.get? (compiler.assemble loaded children).pathname = none :=
      habsent
    -- the file is what the trace makes of it, and its children are stored
    refine ⟨hkept.insert hnone halong fun required hrequires => hstored _ hrequires, ?_⟩
    intro dependency houtcome
    obtain rfl := Except.ok.inj houtcome
    refine ⟨htarget, ?_⟩
    show (between.compiled.insert loaded.pathname _).get? loaded.pathname = _
    rw [Table.get?_insert, if_pos rfl]

/-! ## Any steps -/

/-- A compile of an entry keeps the invariant, whatever else is compiled. -/
theorem keepsInvariant_compile (hreads : compiler.Reads source) {entry : Text}
    (hmem : entry ∈ entries) :
    SessionM.Keeps (Session.Invariant compiler.config source entries) (compiler.compile entry) :=
  keeps_compile_of_entry fun _ h => (establishes_compileReference hreads rfl (.entry hmem) h).1

/-- A step with such entries keeps the invariant. -/
theorem invariant_perform (hreads : compiler.Reads source)
    (h : session.Invariant compiler.config source entries) {step : Step}
    (hentries : step.entries ⊆ entries) :
    (compiler.perform session step).Invariant compiler.config source entries := by
  refine keeps_perform
    (fun entry hmem => keepsInvariant_compile hreads (hentries hmem)) (fun count entry hmem => ?_) h
  have hkeeps := keepsInvariant_compile (hreads.stoppingAfter count) (hentries hmem)
  rw [config_stoppingAfter] at hkeeps
  exact hkeeps

/-- The invariant holds after any steps, for a list of entries that has all of theirs. -/
theorem invariant_after (hreads : compiler.Reads source) {steps : List Step}
    (hentries : steps.flatMap Step.entries ⊆ entries) :
    (compiler.after steps).Invariant compiler.config source entries :=
  after_induct hreads (Session.invariant_initial _ _ _)
    fun _ hloader _ hmem => keepsInvariant_compile hloader (hentries hmem)

/-- Whatever steps a compiler of a fixed set of files has performed: each compiled file is stored
under its own pathname, it has one child for each of its dependencies, in their order, each child
with a file is what is stored under the pathname of that file, and no file below has the pathname of
the file. A further step keeps every compiled file. -/
theorem compiled_consistent (config : Config) (files failures : Table Text) (steps : List Step) :
    let compiler := ofFiles config files failures
    let session := compiler.after steps
    (∀ pathname file, session.compiled.get? pathname = some file →
      file.pathname = pathname ∧
      (∃ trace, List.Forall₂ (Dependency.Answers (trace ++ [file.frame])) file.dependencies
        file.children) ∧
      (∀ child, file.Requires child → session.compiled.get? child.pathname = some child) ∧
      ∀ lower, file.DependsOn lower → lower.pathname ≠ file.pathname) ∧
    ∀ step pathname file, session.compiled.get? pathname = some file →
      (compiler.perform session step).compiled.get? pathname = some file := by
  intro compiler session
  have hinvariant := invariant_after (readsAlways_ofFiles config files failures).toReads
    (List.Subset.refl (steps.flatMap Step.entries))
  refine ⟨fun pathname file hget => ?_, fun step => le_perform compiler session step⟩
  obtain ⟨trace, halong⟩ := hinvariant.compiledAlong hget
  refine ⟨hinvariant.pathname_eq hget, ⟨trace, halong.answers⟩, ?_, ?_⟩
  · exact fun child hrequires => hinvariant.closed hget hrequires
  · exact fun lower hdepends => hinvariant.pathname_ne_of_dependsOn hget hdepends

end Compiler

end ModuleCompiler
