import ModuleCompiler.Proofs.Compile.Recursion

/-!
# Sessions step by step

A compiler is used in steps: it compiles an entry, or several, or it starts a compile that is
abandoned. Each step may fail; the next one goes on from the session that is left.

What holds after some steps is shown by induction over them. `after_induct_of_perform` asks what
each step keeps; `after_induct` asks only what the compile of each entry keeps, with the loader of
the compiler and with one that stops answering, which is how an abandoned compile is run.
-/

namespace ModuleCompiler

/-- A step in the use of a compiler. -/
inductive Step where
  | compile (entry : Text)
  | compileAll (entries : List Text)
  /-- A compile that is abandoned at the request after the next `count`. -/
  | compileAnswering (count : Nat) (entry : Text)

/-- The entries that a step compiles. -/
def Step.entries : Step → List Text
  | .compile entry => [entry]
  | .compileAll entries => entries
  | .compileAnswering _ entry => [entry]

namespace Compiler

/-- The session that a step leaves. -/
def perform (compiler : Compiler) (session : Session) : Step → Session
  | .compile entry => ((compiler.compile entry).exec session).2
  | .compileAll entries => ((compiler.compileAll entries).exec session).2
  | .compileAnswering count entry => ((compiler.compileAnswering count entry).exec session).2

/-- The session that some steps of a new compiler leave. -/
def after (compiler : Compiler) (steps : List Step) : Session :=
  steps.foldl compiler.perform .initial

variable {compiler : Compiler} {source : Text → Reading} {I : Session → Prop}

/-- A compile of an entry is a compile of its pathname under no files, and then its output. -/
theorem exec_compile (compiler : Compiler) (entry : Text) (session : Session) :
    (compiler.compile entry).exec session =
      match (compiler.compileReference [] (entryPathname compiler.config entry)).exec session with
      | (.ok (.module file), after) =>
        (.ok (some ⟨file, Output.finalize compiler.config file⟩), after)
      | (.ok (.absent _), after) => (.ok none, after)
      | (.error halt, after) => (.error halt, after) := by
  rw [compile]
  rcases hexec : (compiler.compileReference [] (entryPathname compiler.config entry)).exec session
    with ⟨halt | file | reference, after⟩
  · rw [SessionM.exec_bind_error hexec]
  · rw [SessionM.exec_bind_ok hexec, SessionM.exec_pure]
  · rw [SessionM.exec_bind_ok hexec, SessionM.exec_pure]

/-- The file of a result is the answer to the pathname of the entry. -/
theorem exec_compileReference_of_result {entry : Text} {session after : Session}
    {result : CompiledModule}
    (h : (compiler.compile entry).exec session = (.ok (some result), after)) :
    (compiler.compileReference [] (entryPathname compiler.config entry)).exec session =
      (.ok (.module result.file), after) := by
  rw [exec_compile] at h
  -- a halt and an absent reference have no result
  rcases hexec : (compiler.compileReference [] (entryPathname compiler.config entry)).exec session
    with ⟨halt | file | reference, last⟩
  · rw [hexec] at h
    simp at h
  · rw [hexec] at h
    obtain ⟨hresult, rfl⟩ := Prod.mk.inj h
    rw [← Option.some.inj (Except.ok.inj hresult)]
  · rw [hexec] at h
    simp at h

/-- The output of a result is the one of its file. -/
theorem code_of_result {entry : Text} {session after : Session} {result : CompiledModule}
    (h : (compiler.compile entry).exec session = (.ok (some result), after)) :
    result.code = Output.finalize compiler.config result.file := by
  have hreference := exec_compileReference_of_result h
  rw [exec_compile, hreference] at h
  obtain ⟨hresult, -⟩ := Prod.mk.inj h
  rw [← Option.some.inj (Except.ok.inj hresult)]

/-- The session that a compile of an entry leaves is the one that the compile of its pathname
leaves. -/
theorem exec_compile_snd (compiler : Compiler) (entry : Text) (session : Session) :
    ((compiler.compile entry).exec session).2 =
      ((compiler.compileReference [] (entryPathname compiler.config entry)).exec session).2 := by
  rw [exec_compile]
  rcases (compiler.compileReference [] (entryPathname compiler.config entry)).exec session
    with ⟨halt | file | reference, after⟩ <;> rfl

/-- A compile of an entry ends alike where the compile of its pathname does. -/
theorem exec_compile_fst_congr {entry : Text} {session after other last : Session}
    {outcome : Except Halt (Dependency CompiledFile)}
    (h : (compiler.compileReference [] (entryPathname compiler.config entry)).exec session =
      (outcome, after))
    (h' : (compiler.compileReference [] (entryPathname compiler.config entry)).exec other =
      (outcome, last)) :
    ((compiler.compile entry).exec other).1 = ((compiler.compile entry).exec session).1 := by
  rw [exec_compile, exec_compile, h, h']
  rcases outcome with halt | file | reference <;> rfl

/-- A compile of an entry keeps what the compile of its pathname keeps. -/
theorem keeps_compile_of_entry {entry : Text}
    (h : SessionM.Keeps I
      (compiler.compileReference [] (entryPathname compiler.config entry))) :
    SessionM.Keeps I (compiler.compile entry) := by
  intro session hinit
  rw [exec_compile_snd]
  exact h session hinit

/-- A compile of an entry keeps what every compile under no files keeps. -/
theorem keeps_compile (h : ∀ reference, SessionM.Keeps I (compiler.compileReference [] reference))
    (entry : Text) : SessionM.Keeps I (compiler.compile entry) :=
  keeps_compile_of_entry (h _)

/-- An abandoned compile is one with a loader that stops answering a number of requests later. -/
theorem exec_compileAnswering (compiler : Compiler) (count : Nat) (entry : Text)
    (session : Session) :
    (compiler.compileAnswering count entry).exec session =
      ((compiler.stoppingAfter (session.requests.length + count)).compile entry).exec session := by
  rw [compileAnswering, SessionM.exec_bind_ok (SessionM.exec_get session), stoppingAfter]

/-- A step keeps what the compile of each of its entries keeps, with the loader of the compiler or
with one that stops answering. -/
theorem keeps_perform {step : Step}
    (h : ∀ entry ∈ step.entries, SessionM.Keeps I (compiler.compile entry))
    (hstopping : ∀ count, ∀ entry ∈ step.entries,
      SessionM.Keeps I ((compiler.stoppingAfter count).compile entry))
    {session : Session} (hinit : I session) : I (compiler.perform session step) := by
  cases step with
  | compile entry => exact h entry (List.mem_singleton_self _) session hinit
  | compileAll entries => exact SessionM.Keeps.mapM_of_mem h session hinit
  | compileAnswering count entry =>
    rw [perform, exec_compileAnswering]
    exact hstopping _ entry (List.mem_singleton_self _) session hinit

/-- What holds of a new session, and what each of some steps keeps, holds after these steps. -/
theorem after_induct_of_perform (hinit : I .initial) {steps : List Step}
    (hstep : ∀ step ∈ steps, ∀ session, I session → I (compiler.perform session step)) :
    I (compiler.after steps) := by
  -- over the steps that are left, from whatever session the others have led to
  have hsteps : ∀ rest : List Step, (∀ step ∈ rest, step ∈ steps) → ∀ session, I session →
      I (rest.foldl compiler.perform session) := by
    intro rest
    induction rest with
    | nil => exact fun _ _ h => h
    | cons step rest ih =>
      intro hrest session h
      obtain ⟨hhead, htail⟩ := List.forall_mem_cons.1 hrest
      exact ih htail _ (hstep step hhead session h)
  exact hsteps steps (fun _ h => h) _ hinit

/-- What holds of a new session, and what the compile of each entry from the same source keeps,
holds after the steps with these entries. -/
theorem after_induct (hreads : compiler.Reads source) (hinit : I .initial)
    {steps : List Step} (hkeeps : ∀ loader, Reads { compiler with loader } source →
      ∀ entry ∈ steps.flatMap Step.entries,
        SessionM.Keeps I (compile { compiler with loader } entry)) :
    I (compiler.after steps) := by
  refine after_induct_of_perform hinit fun step hmem session => ?_
  have hentry : ∀ entry ∈ step.entries, entry ∈ steps.flatMap Step.entries :=
    fun entry h => List.mem_flatMap.2 ⟨step, hmem, h⟩
  exact keeps_perform (fun entry h => hkeeps _ hreads entry (hentry entry h))
    fun count entry h => hkeeps _ (hreads.stoppingAfter count) entry (hentry entry h)

/-- A step keeps every compiled file. -/
theorem le_perform (compiler : Compiler) (session : Session) (step : Step) :
    session.compiled ≤ (compiler.perform session step).compiled :=
  keeps_perform
    (fun entry _ => keeps_compile (fun _ => grows_compileReference compiler _ _ _) entry)
    (fun _ entry _ => keeps_compile (fun _ => grows_compileReference _ _ _ _) entry)
    (Table.le_refl _)

end Compiler

end ModuleCompiler
