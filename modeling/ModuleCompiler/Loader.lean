import ModuleCompiler.Table

/-!
# Loaders

A compiler reads files through a loader, which answers each request with what it found. A loader is
a function of the pathname and of the number of requests made before, so one that stops answering
(`Loader.stoppingAfter`) is a loader too. It lists the pathnames that may be readable; a loader that
lists every readable one is `Loader.Complete`, and bounds how deep imports can nest.
-/

namespace ModuleCompiler

/-- What a loader answers. -/
inductive Reading where
  /-- The text of the file. -/
  | text (text : Text)
  /-- There is no such file. -/
  | missing
  /-- The file cannot be read. -/
  | failed (cause : Text)
  /-- There is no answer yet. -/
  | pending
deriving DecidableEq

/-- A source of files. -/
structure Loader where
  /-- The answer to a request for a pathname, given the number of requests before it. -/
  read : Nat → Text → Reading
  /-- The pathnames that may be readable. -/
  pathnames : List Text

namespace Loader

/-- The answer of a set of files, where reading fails for the pathnames in `failures`. -/
def readFiles (files failures : Table Text) (pathname : Text) : Reading :=
  match failures.get? pathname with
  | some cause => .failed cause
  | none =>
    match files.get? pathname with
    | some text => .text text
    | none => .missing

/-- A file is read when reading it does not fail and the set has it. -/
theorem readFiles_eq_text_iff {files failures : Table Text} {pathname text : Text} :
    readFiles files failures pathname = .text text ↔
      failures.get? pathname = none ∧ files.get? pathname = some text := by
  rw [readFiles]
  rcases failures.get? pathname with _ | cause
  · rcases files.get? pathname with _ | stored <;> simp
  · simp

/-- The loader of a fixed set of files. -/
def ofFiles (files failures : Table Text) : Loader where
  read _ := readFiles files failures
  pathnames := files.keys

/-- The loader that knows some answers already and has none to other requests yet. -/
def ofReadings (known : List (Text × Reading)) : Loader where
  read _ pathname := (known.lookup pathname).getD .pending
  pathnames := known.map Prod.fst

/-- The loader that answers only the first `count` requests. -/
def stoppingAfter (loader : Loader) (count : Nat) : Loader where
  read before pathname := if before < count then loader.read before pathname else .pending
  pathnames := loader.pathnames

/-- Every pathname that can be read is listed. -/
def Complete (loader : Loader) : Prop :=
  ∀ before pathname text, loader.read before pathname = .text text → pathname ∈ loader.pathnames

/-- A fixed set of files is listed completely. -/
theorem complete_ofFiles (files failures : Table Text) : (ofFiles files failures).Complete := by
  intro before pathname text h
  obtain ⟨-, hget⟩ := readFiles_eq_text_iff.1 h
  exact List.mem_map_of_mem ((files.mem_entries_iff pathname text).2 hget)

/-- A loader that stops answering reads no file that was not listed. -/
theorem Complete.stoppingAfter {loader : Loader} (h : loader.Complete) (count : Nat) :
    (loader.stoppingAfter count).Complete := by
  intro before pathname text hread
  simp only [Loader.stoppingAfter] at hread
  split at hread
  · exact h before pathname text hread
  · simp at hread

end Loader

end ModuleCompiler
