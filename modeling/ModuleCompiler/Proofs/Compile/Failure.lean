import ModuleCompiler.Proofs.Compile.Outlook

/-!
# Where a compile fails

A compile that fails has come down a chain of imports to one reference that cannot be compiled: no
pathname is meant by it, or that of a file above, or that of a file that does not settle. The chain
is `Descends`, the end of it `FailsAt`, and both are said without a session, so they do not depend
on what was compiled before.

Only one of these failures reports a cycle: what a compile does before and after it looks at the
trace is `NeverCircular`, which the second half of the module shows part by part.
-/

namespace ModuleCompiler

section Chains

variable (config : Config) (source : Text → Reading)

/-- From a reference under a trace, imports lead down through the files of some frames to another
reference: each file is what the reference before it means, and the next one is among its own. -/
inductive Descends : Trace → Text → Trace → Text → Prop
  | here {trace : Trace} {reference : Text} : Descends trace reference [] reference
  | down {trace frames : Trace} {reference pathname required last : Text}
      {loaded : Compiler.LoadedFile} (target : trace.target reference = .ok (some pathname))
      (settled : settledFile config source pathname = .ok loaded)
      (mem : required ∈ loaded.dependencies)
      (below : Descends (trace ++ [⟨pathname, loaded.scope⟩]) required frames last) :
      Descends trace reference (⟨pathname, loaded.scope⟩ :: frames) last

/-- A reference cannot be compiled under a trace: it has no meaning there, or it means a file of the
trace, or the file that it means does not settle. Only in the last case a file was asked for. -/
inductive FailsAt (trace : Trace) (reference : Text) : List Text → CompileError → Prop
  | meaningless {error : CompileError} (target : trace.target reference = .error error) :
      FailsAt trace reference [] error
  | cyclic {pathname : Text} (target : trace.target reference = .ok (some pathname))
      (mem : pathname ∈ trace.pathnames) :
      FailsAt trace reference [] (.circularDependency (trace.cycleThrough pathname))
  | unsettled {pathname : Text} {error : CompileError}
      (target : trace.target reference = .ok (some pathname))
      (settled : settledFile config source pathname = .error error) :
      FailsAt trace reference [pathname] error

/-- The file of a frame is read, its references are settled in the scope declared for it, and one
that is required means `next` to the frames from the first down to this one. -/
def Imports (above : Trace) (frame : Frame) (next : Text) : Prop :=
  ∃ text settled id, source frame.pathname = .text text ∧
    declaredScope config source (Path.ancestors (Path.directory frame.pathname))
      = .ok frame.scope ∧
    Script.settle frame.scope config.base frame.pathname text = .ok settled ∧
    id ∈ settled.requiredIds ∧
    Trace.target (above ++ [frame]) (ModuleId.toPathname config.base id) = .ok (some next)

end Chains

variable {config : Config} {source : Text → Reading} {trace frames : Trace}
  {reference last back : Text}

/-! ## Places of a chain -/

/-- A reference of a settled file is an import of what the reference means. -/
theorem imports_of_settledFile {loaded : Compiler.LoadedFile} {pathname required next : Text}
    (hsettled : settledFile config source pathname = .ok loaded)
    (hmem : required ∈ loaded.dependencies)
    (htarget : Trace.target (trace ++ [⟨pathname, loaded.scope⟩]) required = .ok (some next)) :
    Imports config source trace ⟨pathname, loaded.scope⟩ next := by
  obtain ⟨text, scope, settled, htext, hscope, hsettle, rfl⟩ := settledFile_eq_ok_iff.1 hsettled
  obtain ⟨id, hid, rfl⟩ := List.mem_map.1 hmem
  exact ⟨text, settled, id, htext, hscope, hsettle, hid, htarget⟩

namespace Descends

/-- The first pathname of a chain, up to what its last reference means, is what its first reference
means. -/
theorem target_of_head (h : Descends config source trace reference frames last)
    (hback : (trace ++ frames).target last = .ok (some back)) {first : Text}
    (hfirst : (frames.pathnames ++ [back]).head? = some first) :
    trace.target reference = .ok (some first) := by
  cases h with
  | here =>
      obtain rfl : back = first := Option.some.inj hfirst
      rwa [List.append_nil] at hback
  | @down _ frames _ pathname _ _ loaded target =>
      obtain rfl : pathname = first := Option.some.inj hfirst
      exact target

/-- Each file of a chain imports the one after it, and the last what its reference means. -/
theorem imports (h : Descends config source trace reference frames last)
    (hback : (trace ++ frames).target last = .ok (some back)) {place : Nat} {frame : Frame}
    {next : Text} (hframe : frames[place]? = some frame)
    (hnext : (frames.pathnames ++ [back])[place + 1]? = some next) :
    Imports config source (trace ++ frames.take place) frame next := by
  induction h generalizing place with
  | here => simp at hframe
  | @down trace frames _ pathname required last loaded _ settled mem below ih =>
      have hbelow : Trace.target (trace ++ [⟨pathname, loaded.scope⟩] ++ frames) last =
          .ok (some back) := by rwa [List.append_assoc]
      have hrest : (frames.pathnames ++ [back])[place]? = some next := hnext
      -- the first file of the chain, or one further down
      rcases place with _ | place
      · obtain rfl : ⟨pathname, loaded.scope⟩ = frame := Option.some.inj hframe
        rw [← List.head?_eq_getElem?] at hrest
        rw [List.take_zero, List.append_nil]
        exact imports_of_settledFile settled mem (below.target_of_head hbelow hrest)
      · have hthere : frames[place]? = some frame := hframe
        have himports := ih hbelow hthere hrest
        rw [List.append_assoc] at himports
        exact himports

end Descends

/-- A compile that is refused before it reads anything fails at its own reference. -/
theorem failsAt_of_outlook {compiled : Table CompiledFile} {error : CompileError}
    (h : trace.outlook reference compiled = .refused error) :
    FailsAt config source trace reference [] error := by
  rw [Trace.outlook] at h
  rcases htarget : trace.target reference with cause | _ | pathname
  · rw [htarget] at h
    obtain rfl := Trace.Outlook.refused.inj h
    exact .meaningless htarget
  · rw [htarget] at h
    simp at h
  · rw [htarget] at h
    dsimp only at h
    rcases hget : compiled.get? pathname with _ | file
    · rw [hget] at h
      dsimp only at h
      -- a file that is neither compiled nor in the trace is opened
      by_cases hincludes : trace.includes pathname
      · rw [if_pos hincludes] at h
        obtain rfl := Trace.Outlook.refused.inj h
        exact .cyclic htarget (by simpa [Trace.includes] using hincludes)
      · rw [if_neg hincludes] at h
        simp at h
    · rw [hget] at h
      simp at h

/-! ## Errors that report no cycle -/

variable {α β : Type}

/-- The computation has no cycle to report. -/
def NeverCircular (result : Except CompileError α) : Prop :=
  ∀ cycle, result ≠ .error (.circularDependency cycle)

/-- A value reports nothing. -/
theorem neverCircular_ok (value : α) : NeverCircular (.ok value) :=
  fun _ => by simp

/-- Computations without a cycle to report may be composed. -/
theorem NeverCircular.bind {result : Except CompileError α} {next : α → Except CompileError β}
    (h : NeverCircular result) (hnext : ∀ value, NeverCircular (next value)) :
    NeverCircular (result >>= next) := by
  rcases result with error | value
  · exact fun cycle heq => h cycle (congrArg Except.error (Except.error.inj heq))
  · exact hnext value

/-- They may be run over a list. -/
theorem NeverCircular.mapM {next : α → Except CompileError β}
    (h : ∀ value, NeverCircular (next value)) (values : List α) :
    NeverCircular (values.mapM next) := by
  induction values with
  | nil => exact neverCircular_ok _
  | cons value rest ih =>
      rw [List.mapM_cons]
      exact (h value).bind fun _ => ih.bind fun _ => neverCircular_ok _

/-- They may be run over a list with a state. -/
theorem NeverCircular.foldlM {next : β → α → Except CompileError β}
    (h : ∀ state value, NeverCircular (next state value)) (values : List α) (state : β) :
    NeverCircular (values.foldlM next state) := by
  induction values generalizing state with
  | nil => exact neverCircular_ok _
  | cons value rest ih =>
      rw [List.foldlM_cons]
      exact (h state value).bind ih

/-- A constraint that is refused reports its text. -/
theorem neverCircular_constraint (text : Text) : NeverCircular (Constraint.parse text) := by
  intro cycle
  rw [Constraint.parse]
  split <;> simp

/-- A pathname that is refused reports its version segment. -/
theorem neverCircular_parse (reference : Text) :
    NeverCircular (VersionedPath.parse reference) := by
  rw [VersionedPath.parse]
  split
  · exact neverCircular_ok _
  · split
    · exact neverCircular_ok _
    · exact neverCircular_ok _
    · exact (neverCircular_constraint _).bind fun _ => neverCircular_ok _

/-- Settling a version ends in a conflict or an invalid version. -/
theorem neverCircular_resolveVersion (reference : Text) (trace : Trace) :
    NeverCircular (resolveVersion reference trace) := by
  intro cycle
  rw [resolveVersion]
  rcases hparse : VersionedPath.parse reference with error | _ | path
  · intro heq
    rw [Except.error.inj heq] at hparse
    exact neverCircular_parse reference cycle hparse
  · simp
  · dsimp only
    -- the errors that are left are conflicts
    repeat' split
    all_goals simp

/-- A reference without a meaning has an invalid version or a conflict. -/
theorem neverCircular_target (trace : Trace) (reference : Text) :
    NeverCircular (trace.target reference) := by
  intro cycle
  rw [Trace.target]
  split
  · simp
  · rcases hresolve : resolveVersion reference trace with error | resolved
    · intro heq
      rw [Except.error.inj heq] at hresolve
      exact neverCircular_resolveVersion reference trace cycle hresolve
    · simp [Except.map]

/-- A file that cannot be read reports itself. -/
theorem neverCircular_content (pathname : Text) (reading : Reading) :
    NeverCircular (reading.content pathname) := by
  intro cycle
  cases reading <;> simp [Reading.content]

/-- A descriptor is malformed or declares an invalid version. -/
theorem neverCircular_ofDescriptor (base pathname text : Text) :
    NeverCircular (Scope.ofDescriptor base pathname text) := by
  rw [Scope.ofDescriptor]
  split
  · exact fun cycle => by simp
  · refine NeverCircular.bind ?_ fun _ => neverCircular_ok _
    refine NeverCircular.foldlM (fun versions path => ?_) _ _
    split
    · exact neverCircular_ok _
    · exact (neverCircular_constraint _).bind fun _ => neverCircular_ok _

/-- A scope is not found for want of a readable descriptor. -/
theorem neverCircular_declaredScope (config : Config) (source : Text → Reading)
    (dirs : List Text) : NeverCircular (declaredScope config source dirs) := by
  induction dirs with
  | nil => exact neverCircular_ok _
  | cons dir above ih =>
      rw [declaredScope]
      refine (neverCircular_content _ _).bind ?_
      rintro (_ | text)
      · exact ih
      · exact neverCircular_ofDescriptor _ _ _

/-- References that do not settle lie outside the base. -/
theorem neverCircular_settle (scope : Scope) (base pathname text : Text) :
    NeverCircular (Script.settle scope base pathname text) := by
  have hid : ∀ id, NeverCircular (Script.settleId scope base pathname id) := by
    intro id cycle
    rw [Script.settleId, ModuleId.ofReference]
    repeat' split
    all_goals simp
  rw [Script.settle]
  exact (NeverCircular.mapM (fun span : Script.IdSpan => hid span.id) _).bind fun _ =>
    neverCircular_ok _

/-- A file that does not settle is missing, unreadable, without a scope, or has such a reference. -/
theorem neverCircular_settledFile (config : Config) (source : Text → Reading) (pathname : Text) :
    NeverCircular (settledFile config source pathname) := by
  rw [settledFile]
  refine (neverCircular_content _ _).bind ?_
  rintro (_ | text)
  · exact fun cycle => by simp
  · refine (neverCircular_declaredScope _ _ _).bind fun scope => ?_
    exact (neverCircular_settle _ _ _ _).bind fun _ => neverCircular_ok _

/-- A cycle is reported where a reference means a file of the trace. -/
theorem FailsAt.of_circular {opened cycle : List Text}
    (h : FailsAt config source trace reference opened (.circularDependency cycle)) :
    opened = [] ∧ ∃ pathname ∈ trace.pathnames,
      trace.target reference = .ok (some pathname) ∧ cycle = trace.cycleThrough pathname := by
  cases h with
  | meaningless target => exact absurd target (neverCircular_target trace reference cycle)
  | cyclic target mem => exact ⟨rfl, _, mem, target, rfl⟩
  | unsettled _ settled => exact absurd settled (neverCircular_settledFile config source _ cycle)

end ModuleCompiler
