import ModuleCompiler.CommandLine.Options
import ModuleCompiler.Compiler
import ModuleCompiler.FileTree

/-!
# Running a command line

A run compiles all entries first and then prints or writes their outputs in order, so an entry that
fails leaves no output behind. `configOf` and `actions` decide what a run does, wherever its files
are; `run` is the run in a file tree.
-/

namespace ModuleCompiler.CommandLine

/-! ## Messages -/

/-- A text in a colour or style, between the codes that start and end it. -/
def styled (start stop : Text) (text : Text) : Text :=
  ("\x1b[" : Text) ++ start ++ ("m" : Text) ++ text ++ ("\x1b[" : Text) ++ stop ++ ("m" : Text)

/-- A bold word in a colour. -/
def emphasized (colour word : Text) : Text :=
  styled "1" "0" (styled colour "39" word)

/-- The line that reports an error. -/
def errorLine (error : CompileError) : Text :=
  emphasized "31" "Error" ++ (": " : Text) ++ error.message ++ ['\n']

/-- The line that reports an entry that is no module. -/
def skippedLine (entry : Text) : Text :=
  emphasized "33" "Skipped" ++ (": " : Text) ++ styled "36" "39" entry
    ++ (" resolves to no module\n" : Text)

/-- The line that reports an output written. -/
def compiledLine (id target : Text) : Text :=
  emphasized "32" "Compiled" ++ [' '] ++ id ++ (" -> " : Text) ++ styled "2" "0" target ++ ['\n']

/-- The answer to a question for the version. -/
def versionLine : Text := "smc 0.1.0\n"

/-- The answer to a question for help. -/
def helpText : Text :=
  Text.joined ['\n'] [
    "Usage: smc [OPTIONS] <ENTRIES>...",
    "",
    "Options:",
    "  -b, --base <BASE>",
    "  -r, --root <ROOT>",
    "  -c, --config <CONFIG>",
    "  -o, --out-dir <OUT_DIR>",
    "  -v, --verbose",
    "  -h, --help",
    "  -V, --version",
    ""]

/-! ## What a run does -/

/-- The settings of a run. `file` is what reading the configuration file gives, if there is one, or
the cause why it fails. The base comes from the command line, else from the environment, else from
the file. -/
def configOf (options : Options) (environmentBase : Option Text) (file : Except Text Text) :
    Except CompileError Config := do
  let config ← match options.config, file with
    | none, _ => .ok Config.standard
    | some path, .error cause => .error (.unreadable path cause)
    | some path, .ok text =>
      match Config.ofText? text with
      | some config => .ok config
      | none => .error (.malformedConfig path)
  let base := (options.base <|> environmentBase).getD config.base
  Config.validate { config with base := base }

/-- One thing that a run does after compiling. -/
inductive Action where
  | skip (entry : Text)
  | print (code : Text)
  | write (target id code : Text)
deriving DecidableEq

/-- The path of an output below the output directory: the path of its module below the base. -/
def outputPath (base pathname : Text) : Text :=
  (Text.dropStart? base pathname).getD (Text.dropLeading '/' pathname)

/-- What is done about an entry. -/
def actionFor (options : Options) (base entry : Text) : Option Compiler.CompiledModule → Action
  | none => .skip entry
  | some module =>
    match options.outDir with
    | none => .print module.code
    | some dir =>
      .write (FileTree.joinPath dir (outputPath base module.file.pathname)) module.file.id
        module.code

/-- What a run does about all entries. -/
def actions (options : Options) (base : Text) (modules : List (Option Compiler.CompiledModule)) :
    List Action :=
  (options.entries.zip modules).map fun (entry, module) => actionFor options base entry module

/-! ## Runs in a file tree -/

/-- What a run leaves behind. -/
structure Outcome where
  exitCode : Nat
  stdout : Text
  stderr : Text
  tree : FileTree
deriving DecidableEq

/-- The outcome of a run that stops at an error. -/
def Outcome.stopped (outcome : Outcome) (error : CompileError) : Outcome :=
  { outcome with exitCode := 1, stderr := outcome.stderr ++ errorLine error }

/-- Performs actions in order, up to the first output that cannot be written. -/
def Outcome.perform (outcome : Outcome) : List Action → Outcome
  | [] => outcome
  | .skip entry :: rest =>
    perform { outcome with stderr := outcome.stderr ++ skippedLine entry } rest
  | .print code :: rest =>
    perform { outcome with stdout := outcome.stdout ++ code ++ ['\n'] } rest
  | .write target id code :: rest =>
    match outcome.tree.write target code with
    | .error fault => outcome.stopped (.unreadable target fault.message)
    | .ok tree =>
      perform { outcome with tree := tree, stderr := outcome.stderr ++ compiledLine id target } rest

/-- What reading the configuration file of a run gives. -/
def configFile (options : Options) (tree : FileTree) : Except Text Text :=
  (tree.read (options.config.getD [])).mapError PathFault.message

/-- The modules that a run compiles. -/
def compileEntries (options : Options) (config : Config) (tree : FileTree) :
    Except Halt (List (Option Compiler.CompiledModule)) :=
  let compiler : Compiler := ⟨config, tree.loader (options.root.getD ['/'])⟩
  ((compiler.compileAll options.entries).run .initial).1

/-- Compiles what a command line asks for. -/
def runOptions (options : Options) (environmentBase : Option Text) (tree : FileTree) : Outcome :=
  let outcome : Outcome := ⟨0, [], [], tree⟩
  match configOf options environmentBase (configFile options tree) with
  | .error error => outcome.stopped error
  | .ok config =>
    match compileEntries options config tree with
    | .ok modules => outcome.perform (actions options config.base modules)
    | .error (.failed error) => outcome.stopped error
    | .error _ => { outcome with exitCode := 1 }

/-- Runs a command line in a file tree. -/
def run (arguments : List Text) (environmentBase : Option Text) (tree : FileTree) : Outcome :=
  match parse arguments with
  | .malformed => ⟨2, [], [], tree⟩
  | .version => ⟨0, versionLine, [], tree⟩
  | .help => ⟨0, helpText, [], tree⟩
  | .compile options => runOptions options environmentBase tree

end ModuleCompiler.CommandLine
