import ModuleCompiler.Compiler
import ModuleCompiler.Proofs.Session.Growth

/-!
# Loading from a fixed source

When the files do not change, what a compiler loads for a pathname is a function of the files: the
log of requests and the scopes found before make no difference. `settledFile` is that function,
built from `declaredScope`, which walks the directories; neither has a session.

`Computes` relates an action to the value it computes on every session whose stored scopes are the
declared ones (`ScopesFrom`), unless the loader leaves a request without an answer. It is composed
as the actions are (`Computes.bind`), so `computes_loadFile` follows the text of `loadFile`.
-/

namespace ModuleCompiler

/-! ## Sources -/

/-- What a reading says about the file at a pathname. -/
def Reading.content (pathname : Text) : Reading → Except CompileError (Option Text)
  | .text body => .ok (some body)
  | .failed cause => .error (.unreadable pathname cause)
  | .missing => .ok none
  | .pending => .ok none

/-- The scope that the first directory with a descriptor declares. -/
def declaredScope (config : Config) (source : Text → Reading) :
    List Text → Except CompileError Scope
  | [] => .ok .empty
  | dir :: above => do
    let pathname := dir ++ config.descriptorName
    match ← (source pathname).content pathname with
    | some text => Scope.ofDescriptor config.base pathname text
    | none => declaredScope config source above

/-- The file at a pathname with its scope and its references settled. -/
def settledFile (config : Config) (source : Text → Reading) (pathname : Text) :
    Except CompileError Compiler.LoadedFile := do
  match ← (source pathname).content pathname with
  | none => .error (.notFound pathname)
  | some text =>
    let scope ← declaredScope config source (Path.ancestors (Path.directory pathname))
    let settled ← Script.settle scope config.base pathname text
    return ⟨pathname, settled.source, scope,
      settled.requiredIds.map (ModuleId.toPathname config.base)⟩

/-- Only a text has a content. -/
theorem Reading.content_eq_some_iff (pathname : Text) {text : Text} {reading : Reading} :
    reading.content pathname = .ok (some text) ↔ reading = .text text := by
  cases reading <;> simp [content]

/-- A file settles when it has a text, its directory has a scope, and its references settle in that
scope. -/
theorem settledFile_eq_ok_iff {config : Config} {source : Text → Reading} {pathname : Text}
    {loaded : Compiler.LoadedFile} :
    settledFile config source pathname = .ok loaded ↔
      ∃ text scope settled, source pathname = .text text ∧
        declaredScope config source (Path.ancestors (Path.directory pathname)) = .ok scope ∧
        Script.settle scope config.base pathname text = .ok settled ∧
        loaded = ⟨pathname, settled.source, scope,
          settled.requiredIds.map (ModuleId.toPathname config.base)⟩ := by
  -- a stage that fails decides, and leaves none of the others
  simp only [settledFile, bind, Except.bind, ← Reading.content_eq_some_iff pathname]
  rcases (source pathname).content pathname with error | _ | text
  · simp
  · simp
  · dsimp only
    rcases declaredScope config source (Path.ancestors (Path.directory pathname)) with error | scope
    · simp
    · dsimp only
      rcases hsettle : Script.settle scope config.base pathname text with error | settled
      · simp [hsettle]
      · simp [hsettle, pure, Except.pure, eq_comm]

/-- A settled file has the pathname it was read for. -/
theorem pathname_of_settledFile {config : Config} {source : Text → Reading} {pathname : Text}
    {loaded : Compiler.LoadedFile} (h : settledFile config source pathname = .ok loaded) :
    loaded.pathname = pathname := by
  obtain ⟨text, scope, settled, -, -, -, rfl⟩ := settledFile_eq_ok_iff.1 h
  rfl

/-- Every stored scope is the one declared for its directory. -/
def Session.ScopesFrom (config : Config) (source : Text → Reading) (session : Session) : Prop :=
  ∀ dir scope, session.scopes.get? dir = some scope →
    declaredScope config source (Path.ancestors dir) = .ok scope

/-- A new session has no scopes. -/
theorem scopesFrom_initial (config : Config) (source : Text → Reading) :
    Session.initial.ScopesFrom config source := by
  intro dir scope h
  simp [Session.initial] at h

/-- A scope found by the walk may be stored. -/
theorem Session.ScopesFrom.insertNew {config : Config} {source : Text → Reading}
    {session : Session} {dir : Text} {scope : Scope} (h : session.ScopesFrom config source)
    (hdeclared : declaredScope config source (Path.ancestors dir) = .ok scope) :
    Session.ScopesFrom config source
      { session with scopes := session.scopes.insertNew dir scope } := by
  intro other stored hstored
  rw [Table.get?_insertNew] at hstored
  by_cases heq : other = dir
  · subst heq
    rw [if_pos rfl] at hstored
    -- a scope that is there already stays, and is the declared one
    rcases hbefore : session.scopes.get? other with _ | known
    · rw [hbefore] at hstored
      rw [← Option.some.inj hstored]
      exact hdeclared
    · rw [hbefore] at hstored
      exact h other stored (by rw [hbefore]; exact hstored)
  · rw [if_neg heq] at hstored
    exact h other stored hstored

namespace Compiler

/-- The loader answers from `source`, as long as it answers. -/
structure Reads (compiler : Compiler) (source : Text → Reading) : Prop where
  complete : compiler.loader.Complete
  read : ∀ before pathname, compiler.loader.read before pathname ≠ .pending →
    compiler.loader.read before pathname = source pathname

/-- The loader answers every request, from `source`. -/
structure ReadsAlways (compiler : Compiler) (source : Text → Reading) : Prop
    extends Reads compiler source where
  answers : ∀ before pathname, compiler.loader.read before pathname ≠ .pending

/-- The compiler of a fixed set of files. -/
def ofFiles (config : Config) (files failures : Table Text) : Compiler :=
  ⟨config, .ofFiles files failures⟩

/-- The loader of a fixed set of files answers from it, every time. -/
theorem readsAlways_ofFiles (config : Config) (files failures : Table Text) :
    (ofFiles config files failures).ReadsAlways (Loader.readFiles files failures) where
  complete := Loader.complete_ofFiles files failures
  read _ _ _ := rfl
  answers before pathname := by
    simp only [ofFiles, Loader.ofFiles, Loader.readFiles]
    split
    · simp
    · split <;> simp

/-- The compiler with a loader that answers only the first `count` requests. -/
def stoppingAfter (compiler : Compiler) (count : Nat) : Compiler :=
  { compiler with loader := compiler.loader.stoppingAfter count }

/-- A loader that stops answering leaves the settings as they are. -/
@[simp] theorem config_stoppingAfter (compiler : Compiler) (count : Nat) :
    (compiler.stoppingAfter count).config = compiler.config := rfl

/-- A loader that stops answering still answers from the same source before. -/
theorem Reads.stoppingAfter {compiler : Compiler} {source : Text → Reading}
    (h : compiler.Reads source) (count : Nat) : (compiler.stoppingAfter count).Reads source where
  complete := h.complete.stoppingAfter count
  read before pathname := by
    simp only [Compiler.stoppingAfter, Loader.stoppingAfter]
    split
    · exact h.read before pathname
    · simp

/-! ## Computed values -/

variable {compiler : Compiler} {source : Text → Reading} {α β : Type}

/-- On a session with the declared scopes the action ends with `result` and leaves such a session,
or else it halts at a request without an answer. -/
def Computes (compiler : Compiler) (source : Text → Reading) (action : SessionM α)
    (result : Except CompileError α) : Prop :=
  ∀ session : Session, session.ScopesFrom compiler.config source →
    (action.exec session).2.ScopesFrom compiler.config source ∧
      ((action.exec session).1 = result.mapError .failed ∨
        ∃ before pathname, compiler.loader.read before pathname = .pending ∧
          (action.exec session).1 = .error (.unanswered pathname))

/-- A computation computes itself. -/
theorem computes_ofExcept (result : Except CompileError α) :
    compiler.Computes source (SessionM.ofExcept result) result := by
  intro session hscopes
  rw [SessionM.exec_ofExcept]
  exact ⟨hscopes, .inl rfl⟩

/-- A value is computed without a session. -/
theorem computes_pure (value : α) : compiler.Computes source (pure value) (.ok value) :=
  computes_ofExcept (.ok value)

/-- An error is computed without a session. -/
theorem computes_throw (error : CompileError) :
    compiler.Computes source (throw (.failed error) : SessionM α) (.error error) :=
  computes_ofExcept (.error error)

/-- What the action answers is the computed value. -/
theorem Computes.eq_ok {action : SessionM α} {result : Except CompileError α}
    {session after : Session} {value : α} (h : compiler.Computes source action result)
    (hscopes : session.ScopesFrom compiler.config source)
    (hexec : action.exec session = (.ok value, after)) :
    after.ScopesFrom compiler.config source ∧ result = .ok value := by
  obtain ⟨hkept, hresult⟩ := h session hscopes
  rw [hexec] at hkept hresult
  refine ⟨hkept, ?_⟩
  rcases hresult with hvalue | ⟨_, _, _, hhalt⟩
  · rcases result with error | computed
    · exact absurd hvalue (by rintro ⟨⟩)
    · have heq : value = computed := Except.ok.inj hvalue
      rw [heq]
  · simp at hhalt

/-- Where the action halts, the computation fails, or a request has no answer. -/
theorem Computes.eq_error {action : SessionM α} {result : Except CompileError α}
    {session after : Session} {halt : Halt} (h : compiler.Computes source action result)
    (hscopes : session.ScopesFrom compiler.config source)
    (hexec : action.exec session = (.error halt, after)) :
    after.ScopesFrom compiler.config source ∧
      ((∃ error, result = .error error ∧ halt = .failed error) ∨
        ∃ before pathname, compiler.loader.read before pathname = .pending ∧
          halt = .unanswered pathname) := by
  obtain ⟨hkept, hresult⟩ := h session hscopes
  rw [hexec] at hkept hresult
  refine ⟨hkept, ?_⟩
  rcases hresult with hfailed | ⟨before, pathname, hpending, hhalt⟩
  · rcases result with error | computed
    · exact .inl ⟨error, rfl, Except.error.inj hfailed⟩
    · exact absurd hfailed (by rintro ⟨⟩)
  · exact .inr ⟨before, pathname, hpending, by simpa using hhalt⟩

/-- When every request is answered, an action that computes a value ends with it. -/
theorem Computes.exec_eq {action : SessionM α} {result : Except CompileError α} {session : Session}
    (h : compiler.Computes source action result) (hreads : compiler.ReadsAlways source)
    (hscopes : session.ScopesFrom compiler.config source) :
    ∃ after : Session, after.ScopesFrom compiler.config source ∧
      action.exec session = (result.mapError .failed, after) := by
  obtain ⟨hkept, hresult⟩ := h session hscopes
  refine ⟨_, hkept, Prod.ext ?_ rfl⟩
  rcases hresult with hvalue | ⟨before, pathname, hpending, -⟩
  · exact hvalue
  · exact absurd hpending (hreads.answers before pathname)

/-- Composed actions compute what their values compute one behind the other. -/
theorem Computes.bind {action : SessionM α} {next : α → SessionM β}
    {result : Except CompileError α} {rest : α → Except CompileError β}
    (h : compiler.Computes source action result)
    (hnext : ∀ value, compiler.Computes source (next value) (rest value)) :
    compiler.Computes source (action >>= next) (result >>= rest) := by
  intro session hscopes
  rcases hexec : action.exec session with ⟨halt | value, between⟩
  · rw [SessionM.exec_bind_error hexec]
    obtain ⟨hkept, ⟨error, rfl, rfl⟩ | ⟨before, pathname, hpending, rfl⟩⟩ :=
      h.eq_error hscopes hexec
    · exact ⟨hkept, .inl rfl⟩
    · exact ⟨hkept, .inr ⟨before, pathname, hpending, rfl⟩⟩
  · rw [SessionM.exec_bind_ok hexec]
    obtain ⟨hkept, rfl⟩ := h.eq_ok hscopes hexec
    exact hnext value between hkept

/-- A request computes the content of the file, whatever was asked for before. -/
theorem computes_request (hreads : compiler.Reads source) (purpose : Purpose) (pathname : Text) :
    compiler.Computes source (SessionM.request compiler.loader purpose pathname)
      ((source pathname).content pathname) := by
  intro session hscopes
  rw [SessionM.exec_request]
  have hread := hreads.read session.requests.length pathname
  -- three answers are those of the source; the fourth is none
  rcases hanswer : compiler.loader.read session.requests.length pathname with
    text | _ | cause | _
  · rw [← hread (by simp [hanswer]), hanswer]
    exact ⟨hscopes, .inl rfl⟩
  · rw [← hread (by simp [hanswer]), hanswer]
    exact ⟨hscopes, .inl rfl⟩
  · rw [← hread (by simp [hanswer]), hanswer]
    exact ⟨hscopes, .inl rfl⟩
  · exact ⟨hscopes, .inr ⟨_, _, hanswer, rfl⟩⟩

/-- The walk over the directories computes the declared scope. -/
theorem computes_nearestScope (hreads : compiler.Reads source) (dirs : List Text) :
    compiler.Computes source (compiler.nearestScope dirs)
      (declaredScope compiler.config source dirs) := by
  induction dirs with
  | nil => exact computes_pure _
  | cons dir above ih =>
      rw [nearestScope, declaredScope]
      refine (computes_request hreads .descriptor _).bind ?_
      rintro (_ | text)
      · exact ih
      · exact computes_ofExcept _

/-- So does the look-up that remembers scopes: it stores only what the walk has found. -/
theorem computes_scopeOf (hreads : compiler.Reads source) (dir : Text) :
    compiler.Computes source (compiler.scopeOf dir)
      (declaredScope compiler.config source (Path.ancestors dir)) := by
  intro session hscopes
  have hwalk := computes_nearestScope hreads (Path.ancestors dir)
  rw [scopeOf, SessionM.exec_bind_ok (SessionM.exec_get session)]
  rcases hget : session.scopes.get? dir with _ | scope
  · -- what the walk finds is stored, an error is not
    dsimp only
    rcases hexec : (compiler.nearestScope (Path.ancestors dir)).exec session with
      ⟨halt | scope, between⟩
    · rw [SessionM.exec_bind_error hexec]
      obtain ⟨hkept, ⟨error, hdeclared, rfl⟩ | ⟨before, pathname, hpending, rfl⟩⟩ :=
        hwalk.eq_error hscopes hexec
      · exact ⟨hkept, .inl (by rw [hdeclared]; rfl)⟩
      · exact ⟨hkept, .inr ⟨before, pathname, hpending, rfl⟩⟩
    · rw [SessionM.exec_bind_ok hexec, SessionM.exec_bind_ok (SessionM.exec_modify _ _),
        SessionM.exec_pure]
      obtain ⟨hkept, hdeclared⟩ := hwalk.eq_ok hscopes hexec
      exact ⟨hkept.insertNew hdeclared, .inl (by rw [hdeclared]; rfl)⟩
  · -- a stored scope is the declared one
    exact ⟨hscopes, .inl (by rw [hscopes dir scope hget]; rfl)⟩

/-- Loading a file computes the settled file. -/
theorem computes_loadFile (hreads : compiler.Reads source) (pathname : Text) :
    compiler.Computes source (compiler.loadFile pathname)
      (settledFile compiler.config source pathname) := by
  rw [loadFile, settledFile]
  refine (computes_request hreads .module pathname).bind ?_
  rintro (_ | text)
  · exact computes_throw _
  · refine (computes_scopeOf hreads _).bind fun scope => ?_
    exact (computes_ofExcept _).bind fun settled => computes_pure _

/-- When every request is answered, a file is loaded alike from every session. -/
theorem exec_loadFile_alike (hreads : compiler.ReadsAlways source) {pathname : Text}
    {session after other : Session} {outcome : Except Halt LoadedFile}
    (h : session.ScopesFrom compiler.config source) (h' : other.ScopesFrom compiler.config source)
    (hload : (compiler.loadFile pathname).exec session = (outcome, after)) :
    ∃ opened : Session, opened.ScopesFrom compiler.config source ∧
      (compiler.loadFile pathname).exec other = (outcome, opened) := by
  have hcomputes := computes_loadFile hreads.toReads pathname
  obtain ⟨kept, -, hexec⟩ := hcomputes.exec_eq hreads h
  rw [hload] at hexec
  obtain ⟨rfl, -⟩ := Prod.mk.inj hexec
  exact hcomputes.exec_eq hreads h'

/-! ## Loading and the compiled files -/

/-- The walk over the directories only asks for descriptors. -/
theorem leavesCompiled_nearestScope (compiler : Compiler) (dirs : List Text) :
    SessionM.LeavesCompiled (compiler.nearestScope dirs) := by
  induction dirs with
  | nil => exact SessionM.leavesCompiled_pure _
  | cons dir above ih =>
      rw [nearestScope]
      refine (SessionM.leavesCompiled_request _ _ _).bind ?_
      rintro (_ | text)
      · exact ih
      · exact SessionM.leavesCompiled_ofExcept _

/-- A look-up stores scopes, and no compiled file. -/
theorem leavesCompiled_scopeOf (compiler : Compiler) (dir : Text) :
    SessionM.LeavesCompiled (compiler.scopeOf dir) := by
  rw [scopeOf]
  refine SessionM.leavesCompiled_get.bind fun session => ?_
  rcases session.scopes.get? dir with _ | scope
  · exact (leavesCompiled_nearestScope compiler _).bind fun scope => fun _ => rfl
  · exact SessionM.leavesCompiled_pure _

/-- Loading a file does not compile it. -/
theorem leavesCompiled_loadFile (compiler : Compiler) (pathname : Text) :
    SessionM.LeavesCompiled (compiler.loadFile pathname) := by
  rw [loadFile]
  refine (SessionM.leavesCompiled_request _ _ _).bind ?_
  rintro (_ | text)
  · exact SessionM.leavesCompiled_throw _
  · refine (leavesCompiled_scopeOf compiler _).bind fun scope => ?_
    exact (SessionM.leavesCompiled_ofExcept _).bind fun settled => SessionM.leavesCompiled_pure _

end Compiler

end ModuleCompiler
