import ModuleCompiler.Text.Basic

/-!
# Command line options

Arguments are read from left to right. Those that start with a dash name options, by a long name
behind two dashes or by one letter behind one; every other argument is an entry. The value of an
option is the argument behind it, or stands in the same argument behind the name.

Options with a value are a `Setting`, those without a `Switch`. `readLong` and `readShort` read one
argument and say how reading goes on, `parse` reads all of them.
-/

namespace ModuleCompiler.CommandLine

/-- The options that take a value. -/
inductive Setting where
  | base
  | root
  | config
  | outDir
deriving DecidableEq, Repr

/-- The options without a value. -/
inductive Switch where
  | verbose
  | help
  | version
deriving DecidableEq, Repr

/-- An option. -/
inductive Flag where
  | setting (setting : Setting)
  | switch (switch : Switch)
deriving DecidableEq, Repr

/-- The option with a long name. -/
def Flag.ofName? (name : Text) : Option Flag :=
  if name = "base" then some (.setting .base)
  else if name = "root" then some (.setting .root)
  else if name = "config" then some (.setting .config)
  else if name = "out-dir" then some (.setting .outDir)
  else if name = "verbose" then some (.switch .verbose)
  else if name = "help" then some (.switch .help)
  else if name = "version" then some (.switch .version)
  else none

/-- The option with a short name. -/
def Flag.ofLetter? : Char → Option Flag
  | 'b' => some (.setting .base)
  | 'r' => some (.setting .root)
  | 'c' => some (.setting .config)
  | 'o' => some (.setting .outDir)
  | 'v' => some (.switch .verbose)
  | 'h' => some (.switch .help)
  | 'V' => some (.switch .version)
  | _ => none

/-- What a command line asks for. -/
structure Options where
  /-- The modules to compile. -/
  entries : List Text := []
  /-- The base directory, in place of the configured one. -/
  base : Option Text := none
  /-- The directory that pathnames are read from. -/
  root : Option Text := none
  /-- The configuration file. -/
  config : Option Text := none
  /-- The directory for the outputs, which are printed without it. -/
  outDir : Option Text := none
  verbose : Bool := false
deriving DecidableEq

/-- What a command line means. -/
inductive Invocation where
  | compile (options : Options)
  | help
  | version
  /-- The command line has not the required form. -/
  | malformed
deriving DecidableEq

namespace Options

/-- The value of a setting, if it was given. -/
def value? (options : Options) : Setting → Option Text
  | .base => options.base
  | .root => options.root
  | .config => options.config
  | .outDir => options.outDir

/-- Stores the value of a setting. -/
def withValue (options : Options) (value : Text) : Setting → Options
  | .base => { options with base := some value }
  | .root => { options with root := some value }
  | .config => { options with config := some value }
  | .outDir => { options with outDir := some value }

/-- Gives a setting its value, which may be done once. A path must not be empty. -/
def set? (options : Options) (setting : Setting) (value : Text) : Option Options :=
  if (options.value? setting).isSome ∨ setting ≠ .base ∧ value = [] then none
  else some (options.withValue value setting)

end Options

/-! ## One argument -/

/-- How reading goes on behind an argument. -/
inductive Progress where
  | ready (options : Options)
  /-- The next argument is the value of a setting. -/
  | awaiting (options : Options) (setting : Setting)
  | finished (invocation : Invocation)
deriving DecidableEq

/-- The options with a setting given. -/
def assign (options : Options) (setting : Setting) (value : Text) : Progress :=
  match options.set? setting value with
  | some options => .ready options
  | none => .finished .malformed

/-- The options with a switch given. Verbosity may be asked for once, and a question for help or for
the version is answered at once. -/
def turnOn (options : Options) : Switch → Progress
  | .verbose =>
    if options.verbose then .finished .malformed else .ready { options with verbose := true }
  | .help => .finished .help
  | .version => .finished .version

/-- Reads an option by its long name, with a value behind an equals sign or without. -/
def readLong (options : Options) (text : Text) : Progress :=
  match Text.cut? '=' text with
  | some (name, value) =>
    match Flag.ofName? name with
    | some (.setting setting) => assign options setting value
    | _ => .finished .malformed
  | none =>
    match Flag.ofName? text with
    | some (.setting setting) => .awaiting options setting
    | some (.switch switch) => turnOn options switch
    | none => .finished .malformed

/-- Reads options by their letters. What follows the letter of a setting is its value, with an
equals sign before it or without. -/
def readShort (options : Options) : Text → Progress
  | [] => .ready options
  | letter :: rest =>
    match Flag.ofLetter? letter with
    | some (.setting setting) =>
      match rest with
      | [] => .awaiting options setting
      | '=' :: value => assign options setting value
      | value => assign options setting value
    | some (.switch switch) =>
      match turnOn options switch with
      | .ready options => readShort options rest
      | progress => progress
    | none => .finished .malformed

/-- Whether an argument names options. A dash alone does not. -/
def isOption (argument : Text) : Bool :=
  argument.head? == some '-' && argument != ['-']

/-- Reads an argument that names options. -/
def readOption (options : Options) (argument : Text) : Progress :=
  match Text.dropStart? "--" argument with
  | some text => readLong options text
  | none => readShort options argument.tail

/-! ## All arguments -/

/-- The meaning of options that are complete: there must be something to compile. -/
def complete (options : Options) : Invocation :=
  if options.entries = [] then .malformed else .compile options

/-- Reads arguments, the first of which may be the value of a setting. Two dashes alone end the
options. -/
def parseFrom (options : Options) (awaited : Option Setting) : List Text → Invocation
  | [] => if awaited.isSome then .malformed else complete options
  | argument :: rest =>
    match awaited with
    | some setting =>
      if isOption argument then .malformed
      else
        match options.set? setting argument with
        | some options => parseFrom options none rest
        | none => .malformed
    | none =>
      if argument = ['-', '-'] then
        complete { options with entries := options.entries ++ rest }
      else if isOption argument then
        match readOption options argument with
        | .ready options => parseFrom options none rest
        | .awaiting options setting => parseFrom options (some setting) rest
        | .finished invocation => invocation
      else
        parseFrom { options with entries := options.entries ++ [argument] } none rest

/-- The meaning of a command line. -/
def parse (arguments : List Text) : Invocation :=
  parseFrom {} none arguments

end ModuleCompiler.CommandLine
