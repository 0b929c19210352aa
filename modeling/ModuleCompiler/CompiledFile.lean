import ModuleCompiler.Scope.Basic

/-!
# Compiled files

A compiled file carries its settled source together with the compiled files it requires, and the
order in which everything below it has to be loaded.
-/

namespace ModuleCompiler

/-- What a required id turned out to be. -/
inductive Dependency (File : Type) where
  /-- A file to load first. -/
  | module (file : File)
  /-- No module: the absent id, or a package whose version stays open. -/
  | absent (reference : Text)

/-- A file with its references settled. -/
structure CompiledFile where
  pathname : Text
  /-- The id the file declares. -/
  id : Text
  /-- The source, with its ids settled. -/
  source : Text
  /-- The pathnames required, as requested. -/
  dependencies : List Text
  /-- What each of the pathnames turned out to be. -/
  children : List (Dependency CompiledFile)
  /-- The pathnames to load before this file, in order. -/
  flattened : List Text
  /-- The scope of the file. -/
  scope : Scope

namespace Dependency

/-- The file, unless there is none. -/
def file? : Dependency CompiledFile → Option CompiledFile
  | module file => some file
  | absent _ => none

/-- The pathname of the file, or the reference without one. -/
def pathname : Dependency CompiledFile → Text
  | module file => file.pathname
  | absent reference => reference

/-- Whether there is no file. -/
def isAbsent : Dependency CompiledFile → Bool
  | module _ => false
  | absent _ => true

end Dependency

/-- Keeps the first occurrence of each text. -/
def firstOccurrences (texts : List Text) : List Text :=
  texts.foldl (fun kept text => if text ∈ kept then kept else kept ++ [text]) []

namespace CompiledFile

/-- What has to be loaded for a file: what it needs, then the file. -/
def loadOrder (file : CompiledFile) : List Text :=
  file.flattened ++ [file.pathname]

/-- What has to be loaded before a file with these children. -/
def flatten (children : List (Dependency CompiledFile)) : List Text :=
  firstOccurrences ((children.filterMap Dependency.file?).flatMap loadOrder)

end CompiledFile

end ModuleCompiler
