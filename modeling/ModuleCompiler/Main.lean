import ModuleCompiler.CommandLine.Run

/-!
# The program

Runs the command line on the file system. Files are read when a compile first asks for them: a
compile that halts for want of a file goes on from the session it has reached once the file is read.
-/

namespace ModuleCompiler.Program

/-- Why the file system refuses. -/
def causeOf : IO.Error → Text
  | .otherError code details | .resourceBusy code details | .resourceVanished code details
  | .unsupportedOperation code details | .hardwareFault code details
  | .unsatisfiedConstraints code details | .illegalOperation code details
  | .protocolError code details | .timeExpired code details
  | .alreadyExists _ code details | .interrupted _ code details
  | .noFileOrDirectory _ code details | .invalidArgument _ code details
  | .permissionDenied _ code details | .resourceExhausted _ code details
  | .inappropriateType _ code details | .noSuchThing _ code details =>
    details ++ (" (os error " : Text) ++ Text.ofNat code.toNat ++ (")" : Text)
  | error => error.toString

/-- Reads the file at a path. -/
def readPath (path : Text) : IO Reading := do
  if '\x00' ∈ path then
    return .failed PathFault.nulCharacter.message
  try
    let handle ← IO.FS.Handle.mk (String.ofList path) .read
    match String.fromUTF8? (← handle.readBinToEnd) with
    | some text => return .text text.toList
    | none => return .failed PathFault.notUtf8.message
  catch error =>
    match error with
    | .noFileOrDirectory .. => return .missing
    | _ => return .failed (causeOf error)

/-- What reading the configuration file gives. -/
def readConfig (options : CommandLine.Options) : IO (Except Text Text) := do
  match options.config with
  | none => return .ok []
  | some path =>
    match ← readPath path with
    | .text text => return .ok text
    | .failed cause => return .error cause
    | _ => return .error PathFault.missing.message

/-- The files read so far, and what has been compiled from them. -/
structure Progress where
  known : List (Text × Reading) := []
  session : Session := .initial

/-- Compiles an entry, reading each file it asks for below `root`. -/
partial def compileEntry (config : Config) (root entry : Text) :
    StateT Progress (ExceptT CompileError IO) (Option Compiler.CompiledModule) := do
  let progress ← get
  let compiler : Compiler := ⟨config, .ofReadings progress.known⟩
  let (outcome, session) := (compiler.compile entry).run progress.session
  set { progress with session := session }
  match outcome with
  | .ok module => return module
  | .error (.failed error) => throw error
  | .error (.unanswered pathname) =>
    let reading ← (readPath (FileTree.locate root pathname) : IO Reading)
    set ({ known := (pathname, reading) :: progress.known, session := session } : Progress)
    compileEntry config root entry
  | .error .exhausted => return none

/-- Makes a path a directory, together with those above it. -/
partial def createDirectories (path : Text) : IO Unit := do
  try
    IO.FS.createDir (String.ofList path)
  catch error =>
    match error with
    | .noFileOrDirectory .. =>
      if Path.container path = path then
        throw error
      createDirectories (Path.container path)
      createDirectories path
    | .alreadyExists .. =>
      let found ← IO.FS.realPath (String.ofList path)
      if !(← found.isDir) then
        throw error
    | _ => throw error

/-- Writes an output, creating the directories it needs. -/
def writeOutput (target code : Text) : IO (Option Text) := do
  try
    createDirectories (Path.container target)
    IO.FS.writeFile (String.ofList target) (String.ofList code)
    return none
  catch error =>
    return some (causeOf error)

/-- Performs actions in order, up to the first output that cannot be written. -/
def perform : List CommandLine.Action → IO UInt32
  | [] => return 0
  | .skip entry :: rest => do
    IO.eprint (String.ofList (CommandLine.skippedLine entry))
    perform rest
  | .print code :: rest => do
    IO.println (String.ofList code)
    perform rest
  | .write target id code :: rest => do
    match ← writeOutput target code with
    | some cause =>
      IO.eprint (String.ofList (CommandLine.errorLine (.unreadable target cause)))
      return 1
    | none =>
      IO.eprint (String.ofList (CommandLine.compiledLine id target))
      perform rest

/-- Compiles what a command line asks for. -/
def runOptions (options : CommandLine.Options) : IO UInt32 := do
  let environmentBase := (← IO.getEnv "SMC_BASE").map String.toList
  let file ← readConfig options
  let compiled : ExceptT CompileError IO (Config × List (Option Compiler.CompiledModule)) := do
    let config ← ExceptT.mk (pure (CommandLine.configOf options environmentBase file))
    let compileAll := options.entries.mapM (compileEntry config (options.root.getD ['/']))
    return (config, (← compileAll.run {}).1)
  match ← compiled.run with
  | .ok (config, modules) => perform (CommandLine.actions options config.base modules)
  | .error error =>
    IO.eprint (String.ofList (CommandLine.errorLine error))
    return 1

end ModuleCompiler.Program

open ModuleCompiler in
def main (arguments : List String) : IO UInt32 := do
  match CommandLine.parse (arguments.map String.toList) with
  | .malformed =>
    IO.eprint (String.ofList CommandLine.helpText)
    return 2
  | .version =>
    IO.print (String.ofList CommandLine.versionLine)
    return 0
  | .help =>
    IO.print (String.ofList CommandLine.helpText)
    return 0
  | .compile options => Program.runOptions options
