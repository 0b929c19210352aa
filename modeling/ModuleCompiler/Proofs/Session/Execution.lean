import ModuleCompiler.Session

/-!
# Executing session actions

`SessionM.exec` runs an action on a session and gives what the action answers and the session it
leaves. The laws below let a proof run an action step by step without opening the monad. A run over
a list is a `Sequence`: its inputs are run in turn up to the first that halts, and an induction over
it has one case for each way in which it ends.
-/

namespace ModuleCompiler

namespace SessionM

variable {α β : Type}

/-- What an action answers on a session, and the session it leaves. -/
def exec (action : SessionM α) (session : Session) : Except Halt α × Session :=
  action.run session

/-- An action is what it answers and leaves on every session. -/
theorem ext {action other : SessionM α} (h : ∀ session, action.exec session = other.exec session) :
    action = other :=
  funext h

/-! ## Steps of an action -/

/-- A value is answered, and the session stays. -/
@[simp] theorem exec_pure (value : α) (session : Session) :
    (pure value : SessionM α).exec session = (.ok value, session) := rfl

/-- A halt leaves the session as it is. -/
@[simp] theorem exec_throw (halt : Halt) (session : Session) :
    (throw halt : SessionM α).exec session = (.error halt, session) := rfl

/-- The session may be read without changing it. -/
@[simp] theorem exec_get (session : Session) :
    (get : SessionM Session).exec session = (.ok session, session) := rfl

/-- A change of the session answers nothing. -/
@[simp] theorem exec_modify (change : Session → Session) (session : Session) :
    (modify change : SessionM PUnit).exec session = (.ok ⟨⟩, change session) := rfl

/-- A computation that fails halts with its error. -/
@[simp] theorem exec_ofExcept (result : Except CompileError α) (session : Session) :
    (ofExcept result).exec session = (result.mapError .failed, session) := by
  cases result <;> rfl

/-- A composed action runs its second part unless the first one halts. -/
theorem exec_bind (action : SessionM α) (next : α → SessionM β) (session : Session) :
    (action >>= next).exec session =
      match action.exec session with
      | (.ok value, after) => (next value).exec after
      | (.error halt, after) => (.error halt, after) := by
  have hunfold : (action >>= next).exec session =
      match (action.exec session).1 with
      | .ok value => (next value).exec (action.exec session).2
      | .error halt => (.error halt, (action.exec session).2) := by
    show (ExceptT.bindCont next (action.exec session).1) (action.exec session).2 = _
    rcases (action.exec session).1 with halt | value <;> rfl
  rw [hunfold]
  rcases action.exec session with ⟨halt | value, after⟩ <;> rfl

/-- Behind a first part that answers, the second one runs on the session it has left. -/
theorem exec_bind_ok {action : SessionM α} {next : α → SessionM β} {session after : Session}
    {value : α} (h : action.exec session = (.ok value, after)) :
    (action >>= next).exec session = (next value).exec after := by
  rw [exec_bind, h]

/-- Behind a first part that halts, nothing runs. -/
theorem exec_bind_error {action : SessionM α} {next : α → SessionM β} {session after : Session}
    {halt : Halt} (h : action.exec session = (.error halt, after)) :
    (action >>= next).exec session = (.error halt, after) := by
  rw [exec_bind, h]

/-- A composed action that answers has answered in both of its parts. -/
theorem exists_of_exec_bind_ok {action : SessionM α} {next : α → SessionM β}
    {session after : Session} {value : β}
    (h : (action >>= next).exec session = (.ok value, after)) :
    ∃ middle between, action.exec session = (.ok middle, between) ∧
      (next middle).exec between = (.ok value, after) := by
  rw [exec_bind] at h
  split at h
  · exact ⟨_, _, ‹_›, h⟩
  · simp at h

/-- A request with an answer is logged; one without an answer halts. -/
theorem exec_request (loader : Loader) (purpose : Purpose) (pathname : Text) (session : Session) :
    (request loader purpose pathname).exec session =
      match loader.read session.requests.length pathname with
      | .pending => (.error (.unanswered pathname), session)
      | .text text =>
        (.ok (some text), { session with requests := session.requests ++ [⟨purpose, pathname⟩] })
      | .missing =>
        (.ok none, { session with requests := session.requests ++ [⟨purpose, pathname⟩] })
      | .failed cause =>
        (.error (.failed (.unreadable pathname cause)),
          { session with requests := session.requests ++ [⟨purpose, pathname⟩] }) := by
  rw [request, exec_bind_ok (exec_get session)]
  cases loader.read session.requests.length pathname <;> rfl

/-! ## Runs over a list -/

/-- A run over a list of inputs, one after the other up to the first that halts, where each single
run is in the relation `R`. -/
inductive Sequence (R : α → Session → Except Halt β → Session → Prop) :
    List α → Session → Except Halt (List β) → Session → Prop
  | nil {session} : Sequence R [] session (.ok []) session
  | halts {input rest session halt after} (head : R input session (.error halt) after) :
      Sequence R (input :: rest) session (.error halt) after
  | haltsLater {input rest session value between halt after}
      (head : R input session (.ok value) between)
      (tail : Sequence R rest between (.error halt) after) :
      Sequence R (input :: rest) session (.error halt) after
  | cons {input rest session value between values after}
      (head : R input session (.ok value) between)
      (tail : Sequence R rest between (.ok values) after) :
      Sequence R (input :: rest) session (.ok (value :: values)) after

namespace Sequence

variable {R S : α → Session → Except Halt β → Session → Prop}
  {inputs : List α} {session after : Session} {outcome : Except Halt (List β)}

/-- What the single runs imply may stand in place of what they are. -/
theorem imp (h : Sequence R inputs session outcome after)
    (himp : ∀ input ∈ inputs, ∀ session outcome after,
      R input session outcome after → S input session outcome after) :
    Sequence S inputs session outcome after := by
  induction h with
  | nil => exact .nil
  | halts head => exact .halts (himp _ (by simp) _ _ _ head)
  | haltsLater head _ ih =>
      exact .haltsLater (himp _ (by simp) _ _ _ head) (ih fun i hi => himp i (by simp [hi]))
  | cons head _ ih =>
      exact .cons (himp _ (by simp) _ _ _ head) (ih fun i hi => himp i (by simp [hi]))

/-- What every single run keeps, the whole run keeps. -/
theorem keeps {I : Session → Prop} (h : Sequence R inputs session outcome after)
    (hkeep : ∀ input session outcome after, R input session outcome after → I session → I after)
    (hinit : I session) : I after := by
  induction h with
  | nil => exact hinit
  | halts head => exact hkeep _ _ _ _ head hinit
  | haltsLater head _ ih => exact ih (hkeep _ _ _ _ head hinit)
  | cons head _ ih => exact ih (hkeep _ _ _ _ head hinit)

end Sequence

/-- `mapM` runs its inputs in sequence. -/
theorem sequence_mapM (action : α → SessionM β) (inputs : List α) (session : Session) :
    Sequence (fun input before outcome after => (action input).exec before = (outcome, after))
      inputs session ((inputs.mapM action).exec session).1
      ((inputs.mapM action).exec session).2 := by
  induction inputs generalizing session with
  | nil => exact .nil
  | cons input rest ih =>
      rw [List.mapM_cons]
      -- the first input halts the run, or a later one does, or none
      rcases hhead : (action input).exec session with ⟨halt | value, between⟩
      · rw [exec_bind_error hhead]
        exact .halts hhead
      · rw [exec_bind_ok hhead]
        have htail := ih between
        rcases hrest : (rest.mapM action).exec between with ⟨halt | values, after⟩
        · rw [exec_bind_error hrest]
          rw [hrest] at htail
          exact .haltsLater hhead htail
        · rw [exec_bind_ok hrest]
          rw [hrest] at htail
          exact .cons hhead htail

end SessionM

end ModuleCompiler
