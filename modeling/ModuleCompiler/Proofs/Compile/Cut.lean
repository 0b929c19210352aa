import ModuleCompiler.Proofs.Compile.Recursion

/-!
# Compiles that are cut short

A compile whose loader stops answering runs like the compile with the full loader, up to the first
request without an answer. What it has compiled by then, the full compile compiles too.

`SessionM.Cut` relates an action that may be cut short to the full one. It is composed as the
actions are, as long as the full action goes on to grow, so `cut_compileReference` follows the
definitions.
-/

namespace ModuleCompiler

namespace SessionM

variable {α β : Type}

/-- The first action ends as the second does, or it halts earlier and has compiled only what the
second compiles. -/
def Cut (stopped full : SessionM α) : Prop :=
  ∀ session, stopped.exec session = full.exec session ∨
    (∃ halt, (stopped.exec session).1 = .error halt) ∧
      (stopped.exec session).2.compiled ≤ (full.exec session).2.compiled

namespace Cut

variable {stopped full : SessionM α}

/-- An action is cut nowhere. -/
theorem refl (action : SessionM α) : Cut action action :=
  fun _ => .inl rfl

/-- Whether it is cut or not, an action has compiled only what the full one compiles. -/
theorem le (h : Cut stopped full) (session : Session) :
    (stopped.exec session).2.compiled ≤ (full.exec session).2.compiled := by
  rcases h session with heq | ⟨-, hle⟩
  · rw [heq]
    exact Table.le_refl _
  · exact hle

/-- A composed action is cut in one of its parts; when it is cut in the first, the full one still
grows in the second. -/
theorem bind {next next' : α → SessionM β} (h : Cut stopped full)
    (hnext : ∀ value, Cut (next value) (next' value)) (hgrows : ∀ value, Grows (next' value)) :
    Cut (stopped >>= next) (full >>= next') := by
  intro session
  rcases h session with heq | ⟨⟨halt, hhalt⟩, hle⟩
  · -- both go on from the same session, if they do
    rcases hexec : full.exec session with ⟨halt | value, between⟩
    · rw [hexec] at heq
      rw [exec_bind_error heq, exec_bind_error hexec]
      exact .inl rfl
    · rw [hexec] at heq
      rw [exec_bind_ok heq, exec_bind_ok hexec]
      exact hnext value between
  · -- only the full one goes on
    right
    have hstopped : stopped.exec session = (.error halt, (stopped.exec session).2) := by
      rw [← hhalt]
    rw [exec_bind_error hstopped]
    refine ⟨⟨halt, rfl⟩, Table.le_trans hle ?_⟩
    rcases hexec : full.exec session with ⟨halt | value, between⟩
    · rw [exec_bind_error hexec]
      exact Table.le_refl _
    · rw [exec_bind_ok hexec]
      exact (hgrows value).le between

/-- Runs over a list are cut at one of their inputs. -/
theorem mapM {action action' : α → SessionM β} (h : ∀ input, Cut (action input) (action' input))
    (hgrows : ∀ input, Grows (action' input)) (inputs : List α) :
    Cut (inputs.mapM action) (inputs.mapM action') := by
  induction inputs with
  | nil => exact refl _
  | cons input rest ih =>
      rw [List.mapM_cons, List.mapM_cons]
      refine (h input).bind (fun value => ?_) fun value => ?_
      · exact ih.bind (fun values => refl _) fun values => grows_pure _
      · exact (Grows.mapM hgrows rest).bind fun values => grows_pure _

end Cut

/-- A request is cut when the loader has answered as often as it does. -/
theorem cut_request (loader : Loader) (count : Nat) (purpose : Purpose) (pathname : Text) :
    Cut (request (loader.stoppingAfter count) purpose pathname)
      (request loader purpose pathname) := by
  intro session
  rw [exec_request]
  by_cases hcount : session.requests.length < count
  · -- the request is one of those that are answered
    left
    rw [exec_request]
    simp only [Loader.stoppingAfter, if_pos hcount]
  · right
    simp only [Loader.stoppingAfter, if_neg hcount]
    refine ⟨⟨_, rfl⟩, ?_⟩
    exact (leavesCompiled_request loader purpose pathname).grows.le session

end SessionM

namespace Compiler

open SessionM (Cut)

variable (compiler : Compiler) (count : Nat)

/-- The walk over the directories is cut at one of its requests. -/
theorem cut_nearestScope (dirs : List Text) :
    Cut ((compiler.stoppingAfter count).nearestScope dirs) (compiler.nearestScope dirs) := by
  induction dirs with
  | nil => exact .refl _
  | cons dir above ih =>
      rw [nearestScope, nearestScope]
      refine (SessionM.cut_request _ _ _ _).bind ?_ ?_
      · rintro (_ | text)
        · exact ih
        · exact .refl _
      · rintro (_ | text)
        · exact (leavesCompiled_nearestScope compiler above).grows
        · exact (SessionM.leavesCompiled_ofExcept _).grows

/-- A look-up is cut in its walk, if it has one. -/
theorem cut_scopeOf (dir : Text) :
    Cut ((compiler.stoppingAfter count).scopeOf dir) (compiler.scopeOf dir) := by
  rw [scopeOf, scopeOf]
  refine (Cut.refl _).bind (fun session => ?_) fun session => ?_
  · -- the two look-ups read the same session, so they take the same way
    rcases session.scopes.get? dir with _ | scope
    · refine (cut_nearestScope compiler count _).bind (fun scope => .refl _) fun scope => ?_
      exact SessionM.LeavesCompiled.grows fun _ => rfl
    · exact .refl _
  · rcases session.scopes.get? dir with _ | scope
    · exact ((leavesCompiled_nearestScope compiler _).bind fun scope _ => rfl).grows
    · exact SessionM.grows_pure _

/-- Loading a file is cut at its own request or in the look-up of its scope. -/
theorem cut_loadFile (pathname : Text) :
    Cut ((compiler.stoppingAfter count).loadFile pathname) (compiler.loadFile pathname) := by
  rw [loadFile, loadFile]
  -- first what may be cut, then that the full action grows behind it
  refine (SessionM.cut_request _ _ _ _).bind ?_ ?_
  · rintro (_ | text)
    · exact .refl _
    · refine (cut_scopeOf compiler count _).bind (fun scope => .refl _) fun scope => ?_
      exact ((SessionM.leavesCompiled_ofExcept _).bind fun settled =>
        SessionM.leavesCompiled_pure _).grows
  · rintro (_ | text)
    · exact (SessionM.leavesCompiled_throw _).grows
    · exact ((leavesCompiled_scopeOf compiler _).bind fun scope =>
        (SessionM.leavesCompiled_ofExcept _).bind fun settled =>
          SessionM.leavesCompiled_pure _).grows

/-- A compile is cut where it loads a file or in one of its imports. -/
theorem cut_compileWithin (depth : Nat) (trace : Trace) (reference : Text) :
    Cut ((compiler.stoppingAfter count).compileWithin depth trace reference)
      (compiler.compileWithin depth trace reference) := by
  induction depth generalizing trace reference with
  | zero => exact .refl _
  | succ depth ih =>
      intro session
      rw [exec_compileWithin_succ, exec_compileWithin_succ]
      split
      · exact .inl rfl
      · exact .inl rfl
      · -- what follows a file that is loaded only adds compiled files
        rename_i pathname _
        have hgrows : ∀ loaded : LoadedFile, SessionM.Grows (loaded.dependencies.mapM
            (compiler.compileWithin depth (trace ++ [⟨pathname, loaded.scope⟩]))) :=
          fun loaded => .mapM (grows_compileWithin compiler depth _) _
        have hpublish : ∀ file, SessionM.Grows (publish file >>= fun file =>
            pure (.module file : Dependency CompiledFile)) :=
          fun file => (grows_publish file).bind fun _ => SessionM.grows_pure _
        refine Cut.bind (cut_loadFile compiler count pathname) (fun loaded => ?_) (fun loaded => ?_)
          session
        · refine (Cut.mapM (ih _) (grows_compileWithin compiler depth _) _).bind
            (fun children => .refl _) fun children => hpublish _
        · exact (hgrows loaded).bind fun children => hpublish _

/-- A compile that stops after some requests has compiled only what the full compile compiles. -/
theorem cut_compileReference (trace : Trace) (reference : Text) :
    Cut ((compiler.stoppingAfter count).compileReference trace reference)
      (compiler.compileReference trace reference) :=
  cut_compileWithin compiler count _ trace reference

end Compiler

end ModuleCompiler
