import ModuleCompiler.Proofs.Compile.Outlook

/-!
# The recursion of a compile

`compileWithin` bounds the depth of imports. Every file on the way down is readable and differs from
those above it, so the bound of `compileReference` is never met, and `exec_compileReference` unfolds
a compile without one.

The argument needs a measure of traces that `Falls` at every import; `unopened`, the number of files
that may still be read below a trace, is one. Any two bounds above such a measure give the same
compile (`compileWithin_eq_of_measure_lt`). What a compile keeps is shown on the way, by induction
over the bound: every compiled file (`grows_compileWithin`), and the absence of the files of the
trace (`keepsAbsent_compileWithin`).
-/

namespace ModuleCompiler

namespace Trace

/-- Those of some pathnames that a trace does not have. -/
def outside (trace : Trace) (pathnames : List Text) : List Text :=
  pathnames.filter (!trace.includes ·)

/-- A trace with one more of the pathnames has fewer of them outside. -/
theorem length_outside_append_lt {trace : Trace} {pathnames : List Text} {pathname : Text}
    (scope : Scope) (hmem : pathname ∈ pathnames) (hnot : pathname ∉ trace.pathnames) :
    (outside (trace ++ [⟨pathname, scope⟩]) pathnames).length
      < (trace.outside pathnames).length := by
  -- the longer trace has outside what the shorter one has, without the new pathname
  have hfilter : outside (trace ++ [⟨pathname, scope⟩]) pathnames
      = (trace.outside pathnames).filter (· ≠ pathname) := by
    rw [outside, outside, List.filter_filter]
    refine List.filter_congr fun other _ => ?_
    simp [includes, pathnames_append_frame, Bool.and_comm]
  have houtside : pathname ∈ trace.outside pathnames := by
    rw [outside, List.mem_filter]
    exact ⟨hmem, by simpa [includes] using hnot⟩
  rw [hfilter, List.length_filter_lt_length_iff_exists]
  exact ⟨pathname, houtside, by simp⟩

end Trace

namespace Compiler

/-! ## One step of the recursion -/

/-- Reads a file, compiles what it requires by `compileImport`, and stores it. -/
def openWith (compiler : Compiler)
    (compileImport : Trace → Text → SessionM (Dependency CompiledFile)) (trace : Trace)
    (pathname : Text) : SessionM (Dependency CompiledFile) := do
  let loaded ← compiler.loadFile pathname
  let children ← loaded.dependencies.mapM (compileImport (trace ++ [⟨pathname, loaded.scope⟩]))
  let file ← publish (compiler.assemble loaded children)
  return .module file

/-- One step of the recursion: what the reference means decides whether a file is read. -/
theorem exec_compileWithin_succ (compiler : Compiler) (depth : Nat) (trace : Trace)
    (reference : Text) (session : Session) :
    (compiler.compileWithin (depth + 1) trace reference).exec session =
      match trace.outlook reference session.compiled with
      | .refused error => (.error (.failed error), session)
      | .settled dependency => (.ok dependency, session)
      | .opens pathname =>
        (compiler.openWith (compiler.compileWithin depth) trace pathname).exec session := by
  rw [compileWithin, Trace.outlook, Trace.target]
  split
  · rfl
  · -- the model asks for the version, the table and the trace in the order of `outlook`
    rcases hresolve : resolveVersion reference trace with error | _ | resolved
    · rfl
    · rfl
    · rw [SessionM.exec_bind_ok (SessionM.exec_ofExcept _ _)]
      simp only [Except.map, Option.map]
      rw [SessionM.exec_bind_ok (SessionM.exec_get session)]
      rcases session.compiled.get? (Path.normalize resolved) with _ | file
      · dsimp only
        split <;> rfl
      · rfl

/-- A file is stored unless one is there, which is answered then. -/
theorem exec_publish (file : CompiledFile) (session : Session) :
    (publish file).exec session =
      match session.compiled.get? file.pathname with
      | some stored => (.ok stored, session)
      | none =>
        (.ok file, { session with compiled := session.compiled.insert file.pathname file }) := by
  rw [publish, SessionM.exec_bind_ok (SessionM.exec_get session)]
  cases session.compiled.get? file.pathname <;> rfl

/-- Where no file is there, the new one is stored and answered. -/
theorem exec_publish_of_absent {file : CompiledFile} {session : Session}
    (h : session.compiled.get? file.pathname = none) :
    (publish file).exec session =
      (.ok file, { session with compiled := session.compiled.insert file.pathname file }) := by
  rw [exec_publish, h]

/-- The loader may answer a request for this pathname with a text. -/
def Readable (compiler : Compiler) (pathname : Text) : Prop :=
  ∃ before text, compiler.loader.read before pathname = .text text

/-- A file is loaded when it is read and its references settle in some scope. -/
theorem exists_of_exec_loadFile {compiler : Compiler} {pathname : Text} {session after : Session}
    {loaded : LoadedFile} (h : (compiler.loadFile pathname).exec session = (.ok loaded, after)) :
    ∃ text scope settled, compiler.loader.read session.requests.length pathname = .text text ∧
      Script.settle scope compiler.config.base pathname text = .ok settled ∧
      loaded = ⟨pathname, settled.source, scope,
        settled.requiredIds.map (ModuleId.toPathname compiler.config.base)⟩ := by
  rw [loadFile] at h
  obtain ⟨answer, asked, hrequest, hrest⟩ := SessionM.exists_of_exec_bind_ok h
  rw [SessionM.exec_request] at hrequest
  -- without a text nothing is loaded
  rcases hread : compiler.loader.read session.requests.length pathname with text | _ | cause | _
  · rw [hread] at hrequest
    obtain rfl : some text = answer := by simpa using congrArg Prod.fst hrequest
    obtain ⟨scope, found, -, hsettle⟩ := SessionM.exists_of_exec_bind_ok hrest
    obtain ⟨settled, between, hsettled, hpure⟩ := SessionM.exists_of_exec_bind_ok hsettle
    obtain rfl : _ = loaded := by simpa using congrArg Prod.fst hpure
    refine ⟨text, scope, settled, rfl, ?_, rfl⟩
    rw [SessionM.exec_ofExcept] at hsettled
    -- references that do not settle would have halted the action
    rcases hresult : Script.settle scope compiler.config.base pathname text with error | result
    · rw [hresult] at hsettled
      cases congrArg Prod.fst hsettled
    · rw [hresult] at hsettled
      rw [Except.ok.inj (congrArg Prod.fst hsettled)]
  · rw [hread] at hrequest
    obtain rfl : none = answer := by simpa using congrArg Prod.fst hrequest
    simp at hrest
  · simp [hread] at hrequest
  · simp [hread] at hrequest

/-- A loaded file has the pathname asked for, and was readable. -/
theorem of_exec_loadFile {compiler : Compiler} {pathname : Text} {session after : Session}
    {loaded : LoadedFile} (h : (compiler.loadFile pathname).exec session = (.ok loaded, after)) :
    loaded.pathname = pathname ∧ compiler.Readable pathname := by
  obtain ⟨_, _, _, hread, -, rfl⟩ := exists_of_exec_loadFile h
  exact ⟨rfl, _, _, hread⟩

/-! ## What a compile keeps -/

/-- Publishing keeps the files that are there. -/
theorem grows_publish (file : CompiledFile) : SessionM.Grows (publish file) := by
  intro table session hle
  rw [exec_publish]
  split
  · exact hle
  · rename_i hnone
    exact Table.le_trans hle (Table.le_insert _ hnone)

/-- A compile keeps every compiled file. -/
theorem grows_compileWithin (compiler : Compiler) (depth : Nat) (trace : Trace) (reference : Text) :
    SessionM.Grows (compiler.compileWithin depth trace reference) := by
  intro table
  induction depth generalizing trace reference with
  | zero => exact SessionM.keeps_throw _
  | succ depth ih =>
      intro session hle
      rw [exec_compileWithin_succ]
      split
      · exact hle
      · exact hle
      · -- the file is loaded, its imports grow by induction, and publishing grows
        rename_i opened _
        have hkeeps : SessionM.Keeps (fun session => table ≤ session.compiled)
            (compiler.openWith (compiler.compileWithin depth) trace opened) := by
          refine SessionM.Keeps.bind ?_ fun _ loaded _ _ => ?_
          · exact (leavesCompiled_loadFile compiler _).keeps (table ≤ ·)
          · refine (SessionM.Keeps.mapM (fun _ => ih _ _) _).bind fun _ children _ _ => ?_
            exact (grows_publish _ table).bind fun _ _ _ _ => SessionM.keeps_pure _
        exact hkeeps session hle

/-- No file of the trace is compiled on the way: each is stored only after all that it requires. -/
theorem keepsAbsent_compileWithin (compiler : Compiler) (depth : Nat) {trace : Trace}
    (reference : Text) {pathname : Text} (hmem : pathname ∈ trace.pathnames) :
    SessionM.Keeps (fun session => session.compiled.get? pathname = none)
      (compiler.compileWithin depth trace reference) := by
  induction depth generalizing trace reference with
  | zero => exact SessionM.keeps_throw _
  | succ depth ih =>
      intro session habsent
      rw [exec_compileWithin_succ]
      split
      · exact habsent
      · exact habsent
      · rename_i opened houtlook
        obtain ⟨-, -, hopened⟩ := Trace.outlook_eq_opens_iff.1 houtlook
        have hkeeps : SessionM.Keeps (fun session => session.compiled.get? pathname = none)
            (compiler.openWith (compiler.compileWithin depth) trace opened) := by
          refine SessionM.Keeps.bind ?_ fun _ loaded _ hload => ?_
          · exact (leavesCompiled_loadFile compiler _).keeps (·.get? pathname = none)
          · -- it stands in the trace of the imports too, and it is not the file that is published
            have hinner : pathname ∈ Trace.pathnames (trace ++ [⟨opened, loaded.scope⟩]) := by
              rw [Trace.pathnames_append_frame]
              exact List.mem_append_left _ hmem
            refine (SessionM.Keeps.mapM (fun _ => ih _ hinner) _).bind fun _ children _ _ => ?_
            refine SessionM.Keeps.bind ?_ fun _ _ _ _ => SessionM.keeps_pure _
            intro between hbetween
            rw [exec_publish]
            split
            · exact hbetween
            · have hne : pathname ≠ loaded.pathname := by
                rw [(of_exec_loadFile hload).1]
                rintro rfl
                exact hopened hmem
              simpa [assemble, Table.get?_insert, hne] using hbetween
        exact hkeeps session habsent

/-! ## The bound -/

/-- The number of files that may be read below a trace. -/
def unopened (compiler : Compiler) (trace : Trace) : Nat :=
  (trace.outside compiler.loader.pathnames).length

/-- At most all files may be read below a trace. -/
theorem unopened_le (compiler : Compiler) (trace : Trace) :
    compiler.unopened trace ≤ compiler.loader.pathnames.length :=
  List.length_filter_le _ _

variable {compiler : Compiler}

/-- A step of the recursion depends on the compiles of imports only below the file it reads. -/
theorem openWith_congr {f g : Trace → Text → SessionM (Dependency CompiledFile)} {trace : Trace}
    {pathname : Text}
    (h : compiler.Readable pathname → ∀ scope,
      f (trace ++ [⟨pathname, scope⟩]) = g (trace ++ [⟨pathname, scope⟩])) :
    compiler.openWith f trace pathname = compiler.openWith g trace pathname := by
  apply SessionM.ext
  intro session
  rw [openWith, openWith]
  rcases hload : (compiler.loadFile pathname).exec session with ⟨halt | loaded, opened⟩
  · rw [SessionM.exec_bind_error hload, SessionM.exec_bind_error hload]
  · have hread : compiler.Readable pathname := (of_exec_loadFile hload).2
    rw [SessionM.exec_bind_ok hload, SessionM.exec_bind_ok hload, h hread]

/-- A measure of traces falls when it gets smaller wherever a file is read that the trace does not
have. -/
def Falls (compiler : Compiler) (measure : Trace → Nat) : Prop :=
  ∀ trace pathname scope, compiler.Readable pathname → pathname ∉ Trace.pathnames trace →
    measure (trace ++ [⟨pathname, scope⟩]) < measure trace

/-- A file that is read below a trace is one less to be read further down. -/
theorem falls_unopened (hcomplete : compiler.loader.Complete) :
    compiler.Falls compiler.unopened := by
  rintro trace pathname scope ⟨before, text, hread⟩ hnot
  exact Trace.length_outside_append_lt scope (hcomplete before pathname text hread) hnot

/-- Any two bounds above a measure that falls agree. -/
theorem compileWithin_eq_of_measure_lt {measure : Trace → Nat} (hfalls : compiler.Falls measure)
    {trace : Trace} {depth depth' : Nat} (h : measure trace < depth) (h' : measure trace < depth') :
    compiler.compileWithin depth trace = compiler.compileWithin depth' trace := by
  induction depth generalizing trace depth' with
  | zero => omega
  | succ depth ih =>
      obtain ⟨below, rfl⟩ : ∃ below, depth' = below + 1 := ⟨depth' - 1, by omega⟩
      funext reference
      apply SessionM.ext
      intro session
      rw [exec_compileWithin_succ, exec_compileWithin_succ]
      split
      · rfl
      · rfl
      · rename_i pathname houtlook
        obtain ⟨-, -, hnot⟩ := Trace.outlook_eq_opens_iff.1 houtlook
        -- below the file that is read the measure is smaller, so both bounds stay above
        rw [openWith_congr fun hread scope => ?_]
        have hlt := hfalls trace pathname scope hread hnot
        exact ih (by omega) (by omega)

/-- A compile, unfolded once and without a bound. -/
theorem exec_compileReference (hcomplete : compiler.loader.Complete) (trace : Trace)
    (reference : Text) (session : Session) :
    (compiler.compileReference trace reference).exec session =
      match trace.outlook reference session.compiled with
      | .refused error => (.error (.failed error), session)
      | .settled dependency => (.ok dependency, session)
      | .opens pathname =>
        (compiler.openWith compiler.compileReference trace pathname).exec session := by
  rw [compileReference, exec_compileWithin_succ]
  split
  · rfl
  · rfl
  · rename_i pathname houtlook
    obtain ⟨-, -, hnot⟩ := Trace.outlook_eq_opens_iff.1 houtlook
    -- the imports have one less to go and one less to read, so their bound may be taken for that of
    -- a compile
    rw [openWith_congr fun hread scope => ?_]
    have hfalls := falls_unopened hcomplete
    have hlt := hfalls trace pathname scope hread hnot
    have hle := unopened_le compiler trace
    show compiler.compileWithin _ _ =
      compiler.compileWithin (compiler.loader.pathnames.length + 1) _
    exact compileWithin_eq_of_measure_lt hfalls (by omega) (by omega)

/-- A compile keeps every compiled file. -/
theorem grows_compileReference (compiler : Compiler) (trace : Trace) (reference : Text) :
    SessionM.Grows (compiler.compileReference trace reference) :=
  grows_compileWithin compiler _ trace reference

/-- A compile publishes no file of its trace. -/
theorem keepsAbsent_compileReference (compiler : Compiler) {trace : Trace} (reference : Text)
    {pathname : Text} (hmem : pathname ∈ trace.pathnames) :
    SessionM.Keeps (fun session => session.compiled.get? pathname = none)
      (compiler.compileReference trace reference) :=
  keepsAbsent_compileWithin compiler _ reference hmem

end Compiler

end ModuleCompiler
