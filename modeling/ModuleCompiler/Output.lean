import ModuleCompiler.CompiledFile
import ModuleCompiler.Config
import ModuleCompiler.ModuleId
import ModuleCompiler.Script.Header
import ModuleCompiler.Script.Reference

/-!
# Output

The text produced for an entry: its settled source with a stamp behind every canonical id, a
header that declares the entry and everything to load before it, and a comment per direct
dependency. The stamps come first, where ids of required modules become the ids of the files they
turned out to be (`stampedSource`); the header is looked for in what they leave (`declaredSource`),
and `finalize` puts the comments in front.
-/

namespace ModuleCompiler.Output

open Script

/-- The file that a required pathname turned out to be; of several the last counts. -/
def resolvedFile? (file : CompiledFile) (requested : Text) : Option CompiledFile :=
  ((file.dependencies.zip file.children).reverse.findSome? fun (pathname, child) =>
    if pathname = requested then child.file? else none)

/-- A canonical id with its stamp, for the file it turned out to be or else for its pathname
without range marks. -/
def stampedId (config : Config) (file : CompiledFile) (found : IdSpan) : Text :=
  let requested := ModuleId.toPathname config.base found.id
  match if found.kind.isSync then resolvedFile? file requested else none with
  | some module => module.id ++ config.stamp module.pathname
  | none => found.id ++ config.stamp (ModuleId.withoutRanges requested)

/-- Whether an id gets a stamp: it is canonical and has no query. -/
def isStamped (id : Text) : Bool :=
  ModuleId.isCanonical id && !id.contains '?'

/-- The source with stamped ids. -/
def stampedSource (config : Config) (file : CompiledFile) : Text :=
  splice file.source
    ((scan file.source).filterMap fun found =>
      if isStamped found.id then found.edit? (stampedId config file found) else none)

/-- The entry for a pathname in the dependency list of a header. -/
def listedDependency (config : Config) (pathname : Text) : Text :=
  ModuleId.ofPathname config.base pathname ++ config.stamp (ModuleId.withoutRanges pathname)

/-- The header of a file. -/
def declaringHeader (config : Config) (file : CompiledFile) : Text :=
  header config.headerCallee file.id (file.flattened.map (listedDependency config))

/-- The source with its header in place. -/
def declaredSource (config : Config) (file : CompiledFile) (source : Text) : Text :=
  replaceHeader config.headerCallee source (declaringHeader config file)

/-- The comment on a direct dependency. -/
def relationComment (file : CompiledFile) : Text :=
  ("// #optional <" : Text) ++ ModuleId.withoutRanges file.pathname ++ (">" : Text)

/-- The comments on the direct dependencies, each once. -/
def relationComments (file : CompiledFile) : List Text :=
  firstOccurrences ((file.children.filterMap Dependency.file?).map relationComment)

/-- The output text of an entry. -/
def finalize (config : Config) (file : CompiledFile) : Text :=
  let source := declaredSource config file (stampedSource config file)
  match relationComments file with
  | [] => source
  | comments => Text.joined ['\n'] comments ++ ("\n\n" : Text) ++ source

end ModuleCompiler.Output
