import ModuleCompiler.Proofs.Session.Execution

/-!
# Growth of the compiled files

A table extends another when it answers every look-up that the other answers, and answers it alike.
An action *grows* when the compiled files it leaves extend those it started from, whatever it
answers; most actions do not touch the compiled files at all.

Growth is one instance of a property that an action keeps. `Keeps` and its laws for composed actions
and for runs over a list serve the others too, so an invariant of sessions is shown for the requests
and the publishing of a compile and holds of every compile then.
-/

namespace ModuleCompiler

namespace Table

variable {α : Type}

/-- A table is below another that keeps all of its entries. -/
instance : LE (Table α) where
  le table extended := ∀ key value, table.get? key = some value → extended.get? key = some value

/-- A table extends itself. -/
theorem le_refl (table : Table α) : table ≤ table :=
  fun _ _ h => h

/-- A table that extends an extended one extends the first. -/
theorem le_trans {first second third : Table α} (h : first ≤ second) (h' : second ≤ third) :
    first ≤ third :=
  fun key value hget => h' key value (h key value hget)

/-- What an extended table does not find was not there before. -/
theorem get?_eq_none_of_le {table extended : Table α} (h : table ≤ extended) {key : Text}
    (hnone : extended.get? key = none) : table.get? key = none := by
  cases hget : table.get? key with
  | none => rfl
  | some value => rw [h key value hget] at hnone; simp at hnone

/-- What a table finds is what an extended one finds. -/
theorem eq_of_get?_of_le {table extended : Table α} (h : table ≤ extended) {key : Text}
    {value found : α} (hget : table.get? key = some value)
    (hfound : extended.get? key = some found) : value = found := by
  have hvalue := h key value hget
  rw [hfound] at hvalue
  exact (Option.some.inj hvalue).symm

/-- Two tables that extend each other answer every look-up alike. -/
theorem get?_eq_of_le_of_le {first second : Table α} (h : first ≤ second) (h' : second ≤ first)
    (key : Text) : first.get? key = second.get? key := by
  cases hget : second.get? key with
  | none => exact get?_eq_none_of_le h hget
  | some value => exact h' key value hget

/-- What a table finds after an insertion is the new entry or was there before. -/
theorem of_get?_insert {table : Table α} {key other : Text} {value found : α}
    (h : (table.insert key value).get? other = some found) :
    (other = key ∧ found = value) ∨ table.get? other = some found := by
  rw [get?_insert] at h
  by_cases heq : other = key
  · rw [if_pos heq] at h
    exact .inl ⟨heq, (Option.some.inj h).symm⟩
  · rw [if_neg heq] at h
    exact .inr h

/-- A new entry keeps the others. -/
theorem le_insert {table : Table α} {key : Text} (value : α) (h : table.get? key = none) :
    table ≤ table.insert key value := by
  intro other stored hget
  rw [get?_insert]
  by_cases heq : other = key
  · rw [heq, h] at hget
    simp at hget
  · rw [if_neg heq]
    exact hget

/-- An extended table still extends after both receive the same entry. -/
theorem insert_le_insert {table extended : Table α} (key : Text) (value : α)
    (h : table ≤ extended) : table.insert key value ≤ extended.insert key value := by
  intro other stored hget
  rw [get?_insert] at hget ⊢
  by_cases heq : other = key
  · rw [if_pos heq] at hget ⊢
    exact hget
  · rw [if_neg heq] at hget ⊢
    exact h other stored hget

/-- A table with one more entry is below every table that holds it too. -/
theorem insert_le {table extended : Table α} {key : Text} {value : α} (h : table ≤ extended)
    (hget : extended.get? key = some value) : table.insert key value ≤ extended := by
  intro other stored hstored
  rw [get?_insert] at hstored
  by_cases heq : other = key
  · rw [if_pos heq] at hstored
    rw [heq, hget, hstored]
  · rw [if_neg heq] at hstored
    exact h other stored hstored

end Table

namespace SessionM

variable {α β : Type} {I : Session → Prop}

/-! ## What an action keeps -/

/-- The action keeps a property of sessions, whether or not it halts. -/
def Keeps (I : Session → Prop) (action : SessionM α) : Prop :=
  ∀ session, I session → I (action.exec session).2

/-- To answer a value keeps everything. -/
theorem keeps_pure (value : α) : Keeps I (pure value : SessionM α) :=
  fun _ h => h

/-- To halt keeps everything. -/
theorem keeps_throw (halt : Halt) : Keeps I (throw halt : SessionM α) :=
  fun _ h => h

/-- A composed action keeps what its first part keeps and its second part keeps after every value
that the first part can answer. -/
theorem Keeps.bind {action : SessionM α} {next : α → SessionM β} (h : Keeps I action)
    (hnext : ∀ session value after, action.exec session = (.ok value, after) →
      Keeps I (next value)) :
    Keeps I (action >>= next) := by
  intro session hinit
  have hfirst := h session hinit
  rcases hexec : action.exec session with ⟨halt | value, between⟩
  · rw [exec_bind_error hexec]
    rwa [hexec] at hfirst
  · rw [exec_bind_ok hexec]
    rw [hexec] at hfirst
    exact hnext session value between hexec between hfirst

/-- A run over a list keeps what the action keeps on each of its inputs. -/
theorem Keeps.mapM_of_mem {action : α → SessionM β} {inputs : List α}
    (h : ∀ input ∈ inputs, Keeps I (action input)) : Keeps I (inputs.mapM action) := by
  induction inputs with
  | nil => exact keeps_pure _
  | cons input rest ih =>
      rw [List.mapM_cons]
      obtain ⟨hinput, hrest⟩ := List.forall_mem_cons.1 h
      exact hinput.bind fun _ _ _ _ => (ih hrest).bind fun _ _ _ _ => keeps_pure _

/-- The same of an action that keeps it on every input. -/
theorem Keeps.mapM {action : α → SessionM β} (h : ∀ input, Keeps I (action input))
    (inputs : List α) : Keeps I (inputs.mapM action) :=
  mapM_of_mem fun input _ => h input

/-- The action keeps every compiled file. -/
def Grows (action : SessionM α) : Prop :=
  ∀ table : Table CompiledFile, Keeps (fun session => table ≤ session.compiled) action

/-- What was compiled before the action is compiled after it. -/
theorem Grows.le {action : SessionM α} (h : Grows action) (session : Session) :
    session.compiled ≤ (action.exec session).2.compiled :=
  h session.compiled session (Table.le_refl _)

/-- The same of an action that is known by what it answers and leaves. -/
theorem Grows.le_of_exec {action : SessionM α} {session after : Session} {outcome : Except Halt α}
    (h : Grows action) (hexec : action.exec session = (outcome, after)) :
    session.compiled ≤ after.compiled := by
  have hle := h.le session
  rwa [hexec] at hle

theorem grows_pure (value : α) : Grows (pure value : SessionM α) :=
  fun _ => keeps_pure value

/-- Composed actions grow. -/
theorem Grows.bind {action : SessionM α} {next : α → SessionM β} (h : Grows action)
    (hnext : ∀ value, Grows (next value)) : Grows (action >>= next) :=
  fun table => (h table).bind fun _ value _ _ => hnext value table

/-- A run over a list of growing actions grows. -/
theorem Grows.mapM {action : α → SessionM β} (h : ∀ input, Grows (action input))
    (inputs : List α) : Grows (inputs.mapM action) :=
  fun table => Keeps.mapM (fun input => h input table) inputs

/-! ## Actions that do not compile -/

/-- The action does not touch the compiled files. -/
def LeavesCompiled (action : SessionM α) : Prop :=
  ∀ session, (action.exec session).2.compiled = session.compiled

/-- An action that does not compile keeps whatever is said of the compiled files. -/
theorem LeavesCompiled.keeps {action : SessionM α} (h : LeavesCompiled action)
    (Q : Table CompiledFile → Prop) : Keeps (fun session => Q session.compiled) action := by
  intro session hinit
  rw [h session]
  exact hinit

/-- An action that does not compile leaves the compiled files that it started from. -/
theorem LeavesCompiled.of_exec {action : SessionM α} {session after : Session}
    {outcome : Except Halt α} (h : LeavesCompiled action)
    (hexec : action.exec session = (outcome, after)) : after.compiled = session.compiled := by
  have heq := h session
  rwa [hexec] at heq

/-- An action that does not compile grows. -/
theorem LeavesCompiled.grows {action : SessionM α} (h : LeavesCompiled action) : Grows action :=
  fun table => h.keeps (table ≤ ·)

theorem leavesCompiled_pure (value : α) : LeavesCompiled (pure value) :=
  fun _ => rfl

theorem leavesCompiled_throw (halt : Halt) : LeavesCompiled (throw halt : SessionM α) :=
  fun _ => rfl

theorem leavesCompiled_get : LeavesCompiled (get : SessionM Session) :=
  fun _ => rfl

theorem leavesCompiled_ofExcept (result : Except CompileError α) :
    LeavesCompiled (ofExcept result) :=
  fun session => by rw [exec_ofExcept]

/-- A request only adds to the log. -/
theorem leavesCompiled_request (loader : Loader) (purpose : Purpose) (pathname : Text) :
    LeavesCompiled (request loader purpose pathname) := by
  intro session
  rw [exec_request]
  cases loader.read session.requests.length pathname <;> rfl

/-- Actions that do not compile may be composed. -/
theorem LeavesCompiled.bind {action : SessionM α} {next : α → SessionM β}
    (h : LeavesCompiled action) (hnext : ∀ value, LeavesCompiled (next value)) :
    LeavesCompiled (action >>= next) := by
  intro session
  rcases hexec : action.exec session with ⟨halt | value, between⟩
  · rw [exec_bind_error hexec, h.of_exec hexec]
  · rw [exec_bind_ok hexec, hnext value between, h.of_exec hexec]

end SessionM

end ModuleCompiler
