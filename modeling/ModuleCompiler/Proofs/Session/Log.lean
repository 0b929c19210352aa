import ModuleCompiler.Proofs.Session.Execution

/-!
# The log of requests

A session logs every request that is answered, and nothing ever leaves the log. Of the requests only
those for modules matter here; a look-up of a descriptor adds nothing to them.

`Session.Logs` says that one session comes from another by asking for some modules, which are then
what `Session.modulesSince` lists. Most actions are `SessionM.Logging`: they ask for the same
modules on every session, whether they halt or not.
-/

namespace ModuleCompiler

/-- The modules among some requests, by their pathnames. -/
def modulesAmong (requests : List Request) : List Text :=
  (requests.filter (·.purpose = .module)).map Request.pathname

/-- Requests in two parts ask for the modules of both. -/
theorem modulesAmong_append (requests more : List Request) :
    modulesAmong (requests ++ more) = modulesAmong requests ++ modulesAmong more := by
  rw [modulesAmong, List.filter_append, List.map_append]
  rfl

namespace Session

/-- The modules asked for since an earlier session, in order and with repetitions. -/
def modulesSince (session earlier : Session) : List Text :=
  modulesAmong (session.requests.drop earlier.requests.length)

/-- The second session has the log of the first and, after it, requests of which these are the
modules. -/
def Logs (session : Session) (modules : List Text) (after : Session) : Prop :=
  ∃ more, after.requests = session.requests ++ more ∧ modulesAmong more = modules

variable {session between after : Session} {modules more : List Text}

/-- A session with the same log has asked for nothing since. -/
theorem logs_of_requests_eq (h : after.requests = session.requests) : session.Logs [] after :=
  ⟨[], by rw [h, List.append_nil], rfl⟩

/-- Two stretches of a log ask for the modules of both, in turn. -/
theorem Logs.trans (h : session.Logs modules between) (h' : between.Logs more after) :
    session.Logs (modules ++ more) after := by
  obtain ⟨requests, hbetween, rfl⟩ := h
  obtain ⟨others, hafter, rfl⟩ := h'
  refine ⟨requests ++ others, ?_, modulesAmong_append requests others⟩
  rw [hafter, hbetween, List.append_assoc]

/-- The modules asked for since are read off the log. -/
theorem Logs.modulesSince_eq (h : session.Logs modules after) :
    after.modulesSince session = modules := by
  obtain ⟨requests, hafter, rfl⟩ := h
  rw [modulesSince, hafter, List.drop_left]

end Session

namespace SessionM

variable {α β : Type} {modules : List Text}

/-- The action asks for these modules on every session. -/
def Logging (modules : List Text) (action : SessionM α) : Prop :=
  ∀ session : Session, session.Logs modules (action.exec session).2

/-- What such an action asks for is logged by the session it leaves. -/
theorem Logging.of_exec {action : SessionM α} {session after : Session} {outcome : Except Halt α}
    (h : Logging modules action) (hexec : action.exec session = (outcome, after)) :
    session.Logs modules after := by
  have hlogs := h session
  rwa [hexec] at hlogs

theorem logging_pure (value : α) : Logging [] (pure value) :=
  fun _ => Session.logs_of_requests_eq rfl

theorem logging_throw (halt : Halt) : Logging [] (throw halt : SessionM α) :=
  fun _ => Session.logs_of_requests_eq rfl

theorem logging_get : Logging [] (get : SessionM Session) :=
  fun _ => Session.logs_of_requests_eq rfl

theorem logging_ofExcept (result : Except CompileError α) : Logging [] (ofExcept result) := by
  intro session
  rw [exec_ofExcept]
  exact Session.logs_of_requests_eq rfl

/-- An action that goes on without asking for modules asks for those of its first part, and so it
does when it halts there. -/
theorem Logging.bind {action : SessionM α} {next : α → SessionM β} (h : Logging modules action)
    (hnext : ∀ value, Logging [] (next value)) : Logging modules (action >>= next) := by
  intro session
  rcases hexec : action.exec session with ⟨halt | value, between⟩
  · rw [exec_bind_error hexec]
    exact h.of_exec hexec
  · rw [exec_bind_ok hexec, ← List.append_nil modules]
    exact (h.of_exec hexec).trans (hnext value between)

/-- A loader that answers has its requests logged. -/
theorem logging_request {loader : Loader} (hloader : ∀ before pathname,
      loader.read before pathname ≠ .pending) (purpose : Purpose) (pathname : Text) :
    Logging (modulesAmong [⟨purpose, pathname⟩]) (request loader purpose pathname) := by
  intro session
  rw [exec_request]
  rcases hread : loader.read session.requests.length pathname with text | _ | cause | _
  · exact ⟨_, rfl, rfl⟩
  · exact ⟨_, rfl, rfl⟩
  · exact ⟨_, rfl, rfl⟩
  · exact absurd hread (hloader _ _)

end SessionM

end ModuleCompiler
