import ModuleCompiler.CompiledFile
import ModuleCompiler.CompileError
import ModuleCompiler.Loader

/-!
# Sessions

What a compiler keeps between compiles: the files it has compiled, the scopes it has found, and a
log of its requests to the loader. A compile is an action on the session, which may halt; what the
session has gained until then is kept.
-/

namespace ModuleCompiler

/-- What a file is read for. -/
inductive Purpose where
  | module
  | descriptor
deriving DecidableEq, Repr

/-- A request to the loader. -/
structure Request where
  purpose : Purpose
  pathname : Text
deriving DecidableEq

/-- What a compiler keeps. -/
structure Session where
  /-- The compiled files by their pathnames. -/
  compiled : Table CompiledFile
  /-- The scopes by the directories they were looked up for. -/
  scopes : Table Scope
  /-- The requests answered so far, in order. -/
  requests : List Request

/-- Why an action ends without a result. -/
inductive Halt where
  /-- The compile has an error. -/
  | failed (error : CompileError)
  /-- The loader does not answer the request for this pathname. -/
  | unanswered (pathname : Text)
  /-- Imports nest deeper than there are files. -/
  | exhausted

/-- An action on a session. -/
abbrev SessionM := ExceptT Halt (StateM Session)

namespace Session

/-- The session of a new compiler. -/
def initial : Session :=
  ⟨.empty, .empty, []⟩

instance : Inhabited Session := ⟨initial⟩

/-- How often a pathname was asked for. -/
def requestCount (session : Session) (pathname : Text) : Nat :=
  session.requests.countP (·.pathname = pathname)

end Session

namespace SessionM

/-- The value of a computation that may fail. -/
def ofExcept {α : Type} : Except CompileError α → SessionM α
  | .ok value => pure value
  | .error error => throw (.failed error)

/-- Asks the loader for a file. The answer is `none` when there is none; a request without an
answer is not logged. -/
def request (loader : Loader) (purpose : Purpose) (pathname : Text) : SessionM (Option Text) := do
  let session ← get
  match loader.read session.requests.length pathname with
  | .pending => throw (.unanswered pathname)
  | reading =>
    set ({ session with requests := session.requests ++ [⟨purpose, pathname⟩] } : Session)
    match reading with
    | .text text => return some text
    | .failed cause => throw (.failed (.unreadable pathname cause))
    | _ => return none

end SessionM

end ModuleCompiler
