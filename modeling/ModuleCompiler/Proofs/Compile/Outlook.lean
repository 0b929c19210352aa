import ModuleCompiler.Proofs.Compile.Loading

/-!
# What a compile starts with

Before it reads anything, a compile settles which pathname its reference means, looks whether that
file is compiled, and whether it is being compiled. `Trace.outlook` is what comes of it, as a
function of the trace and the compiled files, of which it reads one entry only (`outlook_congr`).
-/

namespace ModuleCompiler

namespace Trace

/-- The pathname that a reference means to the files of a trace, or `none` for no module. -/
def target (trace : Trace) (reference : Text) : Except CompileError (Option Text) :=
  if reference = ModuleId.absent then .ok none
  else (resolveVersion reference trace).map (Option.map Path.normalize)

/-- An import is compiled under the pathnames of its importers and that of the importing file. -/
theorem pathnames_append_frame (trace : Trace) (pathname : Text) (scope : Scope) :
    Trace.pathnames (trace ++ [⟨pathname, scope⟩]) = trace.pathnames ++ [pathname] := by
  simp [pathnames]

/-- What a compile does with a reference before it reads anything. -/
inductive Outlook where
  /-- It fails. -/
  | refused (error : CompileError)
  /-- It ends with this dependency. -/
  | settled (dependency : Dependency CompiledFile)
  /-- It has to read the file. -/
  | opens (pathname : Text)

/-- What a compile of `reference` starts with, when these files are compiled already. -/
def outlook (trace : Trace) (reference : Text) (compiled : Table CompiledFile) : Outlook :=
  match trace.target reference with
  | .error error => .refused error
  | .ok none => .settled (.absent reference)
  | .ok (some pathname) =>
    match compiled.get? pathname with
    | some file => .settled (.module file)
    | none =>
      if trace.includes pathname then .refused (.circularDependency (trace.cycleThrough pathname))
      else .opens pathname

variable {trace : Trace} {reference pathname : Text} {compiled : Table CompiledFile}

/-- A file is opened when the reference means it and it is neither compiled nor in the trace. -/
theorem outlook_eq_opens_iff :
    trace.outlook reference compiled = .opens pathname ↔
      trace.target reference = .ok (some pathname) ∧ compiled.get? pathname = none ∧
        pathname ∉ trace.pathnames := by
  unfold outlook
  split
  · simp [*]
  · simp [*]
  · rename_i meant htarget
    rw [htarget]
    split
    · -- compiled already
      rename_i file hget
      simp only [reduceCtorEq, Except.ok.injEq, Option.some.injEq, false_iff, not_and]
      rintro rfl hnone
      simp [hget] at hnone
    · rename_i hget
      split
      · rename_i hincludes
        simp only [reduceCtorEq, Except.ok.injEq, Option.some.injEq, false_iff, not_and]
        rintro rfl -
        simpa [includes] using hincludes
      · rename_i hincludes
        simp only [Outlook.opens.injEq, Except.ok.injEq, Option.some.injEq]
        constructor
        · rintro rfl
          exact ⟨rfl, hget, by simpa [includes] using hincludes⟩
        · rintro ⟨rfl, -⟩
          rfl

/-- A file that is opened is opened wherever it is not compiled: the rest of what is asked does not
depend on the compiled files. -/
theorem outlook_eq_opens_of_absent {others : Table CompiledFile}
    (h : trace.outlook reference compiled = .opens pathname)
    (habsent : others.get? pathname = none) :
    trace.outlook reference others = .opens pathname := by
  obtain ⟨htarget, -, hnot⟩ := outlook_eq_opens_iff.1 h
  exact outlook_eq_opens_iff.2 ⟨htarget, habsent, hnot⟩

/-- A dependency that needs no reading is absent or compiled already. -/
theorem outlook_eq_settled_iff {dependency : Dependency CompiledFile} :
    trace.outlook reference compiled = .settled dependency ↔
      (trace.target reference = .ok none ∧ dependency = .absent reference) ∨
        ∃ pathname file, trace.target reference = .ok (some pathname) ∧
          compiled.get? pathname = some file ∧ dependency = .module file := by
  unfold outlook
  split
  · simp [*]
  · simp [*, eq_comm]
  · rename_i meant htarget
    rw [htarget]
    split
    · rename_i file hget
      simp [hget, eq_comm]
    · rename_i hget
      split <;> simp [hget]

/-- What a compile starts with depends only on what the reference means and on whether that file
is compiled. -/
theorem outlook_congr {compiled' : Table CompiledFile}
    (h : ∀ pathname, trace.target reference = .ok (some pathname) →
      compiled.get? pathname = compiled'.get? pathname) :
    trace.outlook reference compiled = trace.outlook reference compiled' := by
  unfold outlook
  split
  · rfl
  · rfl
  · rename_i meant htarget
    rw [h meant htarget]

end Trace

end ModuleCompiler
