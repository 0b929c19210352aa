import ModuleCompiler.Output
import ModuleCompiler.Scope.Descriptor
import ModuleCompiler.Session
import ModuleCompiler.Version.Resolution

/-!
# Compiling

A compiler turns an entry into its output. To compile a file is to settle its version, load it,
settle its references, compile what it requires in order, and put all of it into the session, where
later imports find it.

`compileWithin` compiles a reference and everything below it, with a bound on the depth of imports.
Each file on the way is readable and differs from those above it, so `compileReference` takes one
more than the number of readable files. An entry is compiled by `compile`, several by `compileAll`,
and by `compileAnswering` with a loader that may abandon the compile.
-/

namespace ModuleCompiler

/-- A compiler: its settings, and where it reads files. -/
structure Compiler where
  config : Config
  loader : Loader

namespace Compiler

/-! ## Scopes -/

/-- The scope of the first of some directories that has a descriptor. -/
def nearestScope (compiler : Compiler) : List Text → SessionM Scope
  | [] => return .empty
  | dir :: above => do
    let pathname := dir ++ compiler.config.descriptorName
    match ← SessionM.request compiler.loader .descriptor pathname with
    | some text => SessionM.ofExcept (Scope.ofDescriptor compiler.config.base pathname text)
    | none => nearestScope compiler above

/-- The scope of a directory: that of the nearest descriptor in it or above it. -/
def scopeOf (compiler : Compiler) (dir : Text) : SessionM Scope := do
  match (← get).scopes.get? dir with
  | some scope => return scope
  | none =>
    let scope ← compiler.nearestScope (Path.ancestors dir)
    modify fun session => { session with scopes := session.scopes.insertNew dir scope }
    return scope

/-- The scope of a file. -/
def scopeFor (compiler : Compiler) (pathname : Text) : SessionM Scope :=
  compiler.scopeOf (Path.directory pathname)

/-! ## Files -/

/-- A file with settled references, before what it requires is compiled. -/
structure LoadedFile where
  pathname : Text
  source : Text
  scope : Scope
  /-- The pathnames required, as requested. -/
  dependencies : List Text
deriving DecidableEq

/-- Reads a file, finds its scope, and settles its references, in this order. -/
def loadFile (compiler : Compiler) (pathname : Text) : SessionM LoadedFile := do
  match ← SessionM.request compiler.loader .module pathname with
  | none => throw (.failed (.notFound pathname))
  | some text =>
    let scope ← compiler.scopeFor pathname
    let base := compiler.config.base
    let settled ← SessionM.ofExcept (Script.settle scope base pathname text)
    return ⟨pathname, settled.source, scope,
      settled.requiredIds.map (ModuleId.toPathname base)⟩

/-- The compiled file, once what it requires is compiled. -/
def assemble (compiler : Compiler) (loaded : LoadedFile)
    (children : List (Dependency CompiledFile)) : CompiledFile where
  pathname := loaded.pathname
  id := ModuleId.ofPathname compiler.config.base loaded.pathname
  source := loaded.source
  dependencies := loaded.dependencies
  children := children
  flattened := CompiledFile.flatten children
  scope := loaded.scope

/-- Puts a file into the session and answers the one that is there now: a file put there before
stays. -/
def publish (file : CompiledFile) : SessionM CompiledFile := do
  let session ← get
  match session.compiled.get? file.pathname with
  | some stored => return stored
  | none =>
    set ({ session with compiled := session.compiled.insert file.pathname file } : Session)
    return file

/-- Compiles `reference` as a dependency of the files in `trace`, with imports at most `depth`
deep. -/
def compileWithin (compiler : Compiler) :
    Nat → Trace → Text → SessionM (Dependency CompiledFile)
  | 0, _, _ => throw .exhausted
  | depth + 1, trace, reference =>
    if reference = ModuleId.absent then
      return .absent reference
    else do
      match ← SessionM.ofExcept (resolveVersion reference trace) with
      | none => return .absent reference
      | some resolved =>
        let pathname := Path.normalize resolved
        -- a file that is compiled is shared before the trace is asked, so only files that are being
        -- compiled close a cycle
        match (← get).compiled.get? pathname with
        | some file => return .module file
        | none =>
          if trace.includes pathname then
            throw (.failed (.circularDependency (trace.cycleThrough pathname)))
          else
            let loaded ← compiler.loadFile pathname
            let inner := trace ++ [⟨pathname, loaded.scope⟩]
            let children ← loaded.dependencies.mapM (compileWithin compiler depth inner)
            let file ← publish (compiler.assemble loaded children)
            return .module file

/-- Compiles `reference` as a dependency of the files in `trace`. -/
def compileReference (compiler : Compiler) (trace : Trace) (reference : Text) :
    SessionM (Dependency CompiledFile) :=
  compiler.compileWithin (compiler.loader.pathnames.length + 1) trace reference

/-! ## Entries -/

/-- The pathname of an entry, given as a canonical id or as a path that starts at the base. -/
def entryPathname (config : Config) (entry : Text) : Text :=
  if ModuleId.isCanonical entry then
    ModuleId.toPathname config.base entry
  else
    let path := ModuleId.stripQuery entry
    if path = ModuleId.absent then path else Path.resolve config.base path

/-- A compiled entry and its output. -/
structure CompiledModule where
  file : CompiledFile
  code : Text

/-- Compiles an entry. The result is `none` when the entry is no module. -/
def compile (compiler : Compiler) (entry : Text) : SessionM (Option CompiledModule) := do
  match ← compiler.compileReference [] (entryPathname compiler.config entry) with
  | .module file => return some ⟨file, Output.finalize compiler.config file⟩
  | .absent _ => return none

/-- Compiles an entry while the loader answers only the next `count` requests. -/
def compileAnswering (compiler : Compiler) (count : Nat) (entry : Text) :
    SessionM (Option CompiledModule) := do
  let answered := (← get).requests.length + count
  compile { compiler with loader := compiler.loader.stoppingAfter answered } entry

/-- Compiles entries one after the other, up to the first that fails. -/
def compileAll (compiler : Compiler) (entries : List Text) :
    SessionM (List (Option CompiledModule)) :=
  entries.mapM compiler.compile

end Compiler

end ModuleCompiler
