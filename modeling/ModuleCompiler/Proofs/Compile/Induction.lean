import ModuleCompiler.Proofs.Compile.Recursion

/-!
# Induction over a compile

A compile is refused, or settled, or it reads a file; then the file cannot be loaded, or a compile
of an import halts, or the file is published. `cases_of_opens` runs a compile that reads a file in
each of these ways, and `compileReference_induct` has one case for each of the five, where the
imports come with what is to be proved of them. Every property of whole compiles is proved by it, so
only this module unfolds the recursion of a compile for that purpose.
-/

namespace ModuleCompiler

namespace Compiler

variable {compiler : Compiler}

/-! ## A compile that reads a file -/

section Opens

variable {trace : Trace} {reference pathname : Text} {session opened last : Session}
  {loaded : LoadedFile} {halt : Halt}

/-- A compile ends with the failure of the file that it reads. -/
theorem exec_of_unloaded (hcomplete : compiler.loader.Complete)
    (houtlook : trace.outlook reference session.compiled = .opens pathname)
    (hload : (compiler.loadFile pathname).exec session = (.error halt, last)) :
    (compiler.compileReference trace reference).exec session = (.error halt, last) := by
  rw [exec_compileReference hcomplete, houtlook]
  dsimp only
  rw [openWith, SessionM.exec_bind_error hload]

/-- A compile ends with the failure of an import, and nothing is published. -/
theorem exec_of_abandoned (hcomplete : compiler.loader.Complete)
    (houtlook : trace.outlook reference session.compiled = .opens pathname)
    (hload : (compiler.loadFile pathname).exec session = (.ok loaded, opened))
    (himports : (loaded.dependencies.mapM (compiler.compileReference
      (trace ++ [⟨pathname, loaded.scope⟩]))).exec opened = (.error halt, last)) :
    (compiler.compileReference trace reference).exec session = (.error halt, last) := by
  rw [exec_compileReference hcomplete, houtlook]
  dsimp only
  rw [openWith, SessionM.exec_bind_ok hload, SessionM.exec_bind_error himports]

/-- The file is still absent after its imports. -/
theorem get?_eq_none_of_imports {outcome : Except Halt (List (Dependency CompiledFile))}
    (houtlook : trace.outlook reference session.compiled = .opens pathname)
    (hload : (compiler.loadFile pathname).exec session = (.ok loaded, opened))
    (himports : (loaded.dependencies.mapM (compiler.compileReference
      (trace ++ [⟨pathname, loaded.scope⟩]))).exec opened = (outcome, last)) :
    last.compiled.get? pathname = none := by
  obtain ⟨-, habsent, -⟩ := Trace.outlook_eq_opens_iff.1 houtlook
  have hmem : pathname ∈ Trace.pathnames (trace ++ [⟨pathname, loaded.scope⟩]) := by
    simp [Trace.pathnames_append_frame]
  -- what is in the trace stays absent as long as the imports run
  have hkeeps := SessionM.Keeps.mapM
    (fun required => keepsAbsent_compileReference compiler required hmem) loaded.dependencies opened
  rw [himports] at hkeeps
  refine hkeeps ?_
  show opened.compiled.get? pathname = none
  rw [(leavesCompiled_loadFile compiler _).of_exec hload]
  exact habsent

/-- A compile whose imports have all answered publishes its file. Nothing is published there in
between: the file is in the trace of its imports, and they do not publish what is being compiled. -/
theorem exec_of_published (hcomplete : compiler.loader.Complete)
    {children : List (Dependency CompiledFile)}
    (houtlook : trace.outlook reference session.compiled = .opens pathname)
    (hload : (compiler.loadFile pathname).exec session = (.ok loaded, opened))
    (himports : (loaded.dependencies.mapM (compiler.compileReference
      (trace ++ [⟨pathname, loaded.scope⟩]))).exec opened = (.ok children, last)) :
    (compiler.compileReference trace reference).exec session =
      (.ok (.module (compiler.assemble loaded children)),
        { last with
          compiled := last.compiled.insert pathname (compiler.assemble loaded children) }) := by
  have hnone := get?_eq_none_of_imports houtlook hload himports
  obtain ⟨rfl, -⟩ := of_exec_loadFile hload
  have hpublish := exec_publish_of_absent
    (show last.compiled.get? (compiler.assemble loaded children).pathname = none from hnone)
  rw [exec_compileReference hcomplete, houtlook]
  dsimp only
  rw [openWith, SessionM.exec_bind_ok hload, SessionM.exec_bind_ok himports,
    SessionM.exec_bind_ok hpublish, SessionM.exec_pure]
  rfl

/-- The ways in which a compile ends that reads a file: the file cannot be loaded, or the imports
halt, or the file is published. Whatever happens to the imports, the file itself is not compiled by
then. -/
theorem cases_of_opens (hcomplete : compiler.loader.Complete)
    {outcome : Except Halt (Dependency CompiledFile)}
    (houtlook : trace.outlook reference session.compiled = .opens pathname)
    (hexec : (compiler.compileReference trace reference).exec session = (outcome, last)) :
    (∃ halt, (compiler.loadFile pathname).exec session = (.error halt, last) ∧
      outcome = .error halt) ∨
    ∃ loaded opened imports between,
      (compiler.loadFile pathname).exec session = (.ok loaded, opened) ∧
      (loaded.dependencies.mapM (compiler.compileReference
        (trace ++ [⟨pathname, loaded.scope⟩]))).exec opened = (imports, between) ∧
      between.compiled.get? pathname = none ∧
      match imports with
      | .error halt => outcome = .error halt ∧ last = between
      | .ok children =>
        outcome = .ok (.module (compiler.assemble loaded children)) ∧
          last = { between with
            compiled := between.compiled.insert pathname (compiler.assemble loaded children) } := by
  rcases hload : (compiler.loadFile pathname).exec session with ⟨halt | loaded, opened⟩
  · rw [exec_of_unloaded hcomplete houtlook hload] at hexec
    obtain ⟨rfl, rfl⟩ := Prod.mk.inj hexec
    exact .inl ⟨halt, rfl, rfl⟩
  · rcases himports : (loaded.dependencies.mapM (compiler.compileReference
      (trace ++ [⟨pathname, loaded.scope⟩]))).exec opened with ⟨halt | children, between⟩
    · refine .inr ⟨loaded, opened, _, between, rfl, himports,
        get?_eq_none_of_imports houtlook hload himports, ?_⟩
      rw [exec_of_abandoned hcomplete houtlook hload himports] at hexec
      obtain ⟨rfl, rfl⟩ := Prod.mk.inj hexec
      exact ⟨rfl, rfl⟩
    · refine .inr ⟨loaded, opened, _, between, rfl, himports,
        get?_eq_none_of_imports houtlook hload himports, ?_⟩
      rw [exec_of_published hcomplete houtlook hload himports] at hexec
      obtain ⟨rfl, rfl⟩ := Prod.mk.inj hexec
      exact ⟨rfl, rfl⟩

end Opens

/-! ## Induction over a compile -/

/-- The runs of the imports of a file, each with what is known of it. -/
abbrev ImportRuns (compiler : Compiler)
    (P : Trace → Text → Session → Except Halt (Dependency CompiledFile) → Session → Prop)
    (trace : Trace) :
    List Text → Session → Except Halt (List (Dependency CompiledFile)) → Session → Prop :=
  SessionM.Sequence fun reference session outcome after =>
    (compiler.compileReference trace reference).exec session = (outcome, after) ∧
      P trace reference session outcome after

/-- The imports of a file run one after the other; what holds of every compile under the trace,
holds of each of these. -/
theorem importRuns_of_exec {P : Trace → Text → Session → Except Halt (Dependency CompiledFile) →
      Session → Prop} {trace : Trace} {required : List Text} {session after : Session}
    {outcome : Except Halt (List (Dependency CompiledFile))}
    (hexec : (required.mapM (compiler.compileReference trace)).exec session = (outcome, after))
    (hP : ∀ reference session outcome after,
      (compiler.compileReference trace reference).exec session = (outcome, after) →
        P trace reference session outcome after) :
    compiler.ImportRuns P trace required session outcome after := by
  have hsequence := SessionM.sequence_mapM (compiler.compileReference trace) required session
  rw [hexec] at hsequence
  exact hsequence.imp fun reference _ session outcome after hrun =>
    ⟨hrun, hP reference session outcome after hrun⟩

/-- The imports of a file keep every compiled file. -/
theorem ImportRuns.le {P : Trace → Text → Session → Except Halt (Dependency CompiledFile) →
      Session → Prop} {trace : Trace} {required : List Text} {session after : Session}
    {outcome : Except Halt (List (Dependency CompiledFile))}
    (h : compiler.ImportRuns P trace required session outcome after) :
    session.compiled ≤ after.compiled := by
  refine h.keeps (I := fun last => session.compiled ≤ last.compiled)
    (fun reference between outcome last hrun hle => ?_) (Table.le_refl _)
  exact Table.le_trans hle ((grows_compileReference compiler _ _).le_of_exec hrun.1)

/-- What holds of each way in which a compile ends, if it holds of the compiles of the imports,
holds of every compile. A compile is refused or settled before anything is read; or the file cannot
be loaded; or one of its imports halts; or the file is published, and then nothing has published it
in between. -/
theorem compileReference_induct (hcomplete : compiler.loader.Complete)
    {P : Trace → Text → Session → Except Halt (Dependency CompiledFile) → Session → Prop}
    (hrefused : ∀ trace reference session error,
      trace.outlook reference session.compiled = .refused error →
      P trace reference session (.error (.failed error)) session)
    (hsettled : ∀ trace reference session dependency,
      trace.outlook reference session.compiled = .settled dependency →
      P trace reference session (.ok dependency) session)
    (hunloaded : ∀ trace reference session pathname halt after,
      trace.outlook reference session.compiled = .opens pathname →
      (compiler.loadFile pathname).exec session = (.error halt, after) →
      P trace reference session (.error halt) after)
    (habandoned : ∀ trace reference session pathname loaded opened halt after,
      trace.outlook reference session.compiled = .opens pathname →
      (compiler.loadFile pathname).exec session = (.ok loaded, opened) →
      compiler.ImportRuns P (trace ++ [⟨pathname, loaded.scope⟩]) loaded.dependencies opened
        (.error halt) after →
      after.compiled.get? pathname = none →
      P trace reference session (.error halt) after)
    (hpublished : ∀ trace reference session pathname loaded opened children between,
      trace.outlook reference session.compiled = .opens pathname →
      (compiler.loadFile pathname).exec session = (.ok loaded, opened) →
      compiler.ImportRuns P (trace ++ [⟨pathname, loaded.scope⟩]) loaded.dependencies opened
        (.ok children) between →
      between.compiled.get? pathname = none →
      P trace reference session (.ok (.module (compiler.assemble loaded children)))
        { between with
          compiled := between.compiled.insert pathname (compiler.assemble loaded children) })
    {trace : Trace} {reference : Text} {session after : Session}
    {outcome : Except Halt (Dependency CompiledFile)}
    (hexec : (compiler.compileReference trace reference).exec session = (outcome, after)) :
    P trace reference session outcome after := by
  -- the number of files that may still be read below the trace falls at every import
  induction hbound : compiler.unopened trace using Nat.strongRecOn
    generalizing trace reference session outcome after with
  | _ bound ih =>
      rcases houtlook : trace.outlook reference session.compiled with error | dependency | pathname
      · rw [exec_compileReference hcomplete, houtlook] at hexec
        obtain ⟨rfl, rfl⟩ := Prod.mk.inj hexec
        exact hrefused trace reference session error houtlook
      · rw [exec_compileReference hcomplete, houtlook] at hexec
        obtain ⟨rfl, rfl⟩ := Prod.mk.inj hexec
        exact hsettled trace reference session dependency houtlook
      · obtain ⟨-, -, hnot⟩ := Trace.outlook_eq_opens_iff.1 houtlook
        rcases cases_of_opens hcomplete houtlook hexec with ⟨halt, hload, rfl⟩ |
          ⟨loaded, opened, imports, between, hload, himports, hnone, hends⟩
        · exact hunloaded trace reference session pathname halt after houtlook hload
        · -- the file itself is read no more below, so the induction hypothesis applies to the
          -- imports
          obtain ⟨-, hread⟩ := of_exec_loadFile hload
          have hlt := falls_unopened hcomplete trace pathname loaded.scope hread hnot
          have hruns := importRuns_of_exec himports fun _ _ _ _ hrun => ih _ (hbound ▸ hlt) hrun rfl
          rcases imports with halt | children
          · obtain ⟨rfl, rfl⟩ := hends
            exact habandoned trace reference session pathname loaded opened halt _ houtlook hload
              hruns hnone
          · obtain ⟨rfl, rfl⟩ := hends
            exact hpublished trace reference session pathname loaded opened children _ houtlook
              hload hruns hnone

end Compiler

end ModuleCompiler
