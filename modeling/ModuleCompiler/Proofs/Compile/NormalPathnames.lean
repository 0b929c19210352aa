import ModuleCompiler.Proofs.Compile.Ranges
import ModuleCompiler.Proofs.Path.Ancestors

/-!
# Normal pathnames throughout a session

Entries, ids and versions come from texts that nobody has checked, and yet a loader is asked only
for pathnames in normal form: every reference is normalized before it is followed, and pinning a
version keeps the form. Only the name of the descriptors comes from the settings as it is. Nothing
is assumed about the loader, which may answer the same request differently, list no pathname, or
stop answering.

So the induction is not over the files that are left to read, which may be any, but over the bound
on the depth: `normal_compileWithin` shows that a compile of any depth keeps a session normal, and
`normal_after` that any steps do.
-/

namespace ModuleCompiler

open Path

/-- A path in normal form. -/
def Path.IsNormal (path : Text) : Prop :=
  ∃ names last, Rooted path names last

/-- A request for a module in normal form, or for a descriptor in a directory in normal form. -/
def Request.IsNormal (config : Config) : Request → Prop
  | ⟨.module, pathname⟩ => Path.IsNormal pathname
  | ⟨.descriptor, pathname⟩ =>
    ∃ names, (∀ name ∈ names, IsName name) ∧ pathname = directoryAt names ++ config.descriptorName

/-- The descriptors are named like files. -/
def Config.NamesDescriptor (config : Config) : Prop :=
  config.descriptorName ≠ ['.'] ∧ config.descriptorName ≠ ['.', '.']

/-- With such a name descriptors have pathnames in normal form too. -/
theorem Request.IsNormal.pathname {config : Config} {request : Request}
    (h : request.IsNormal config) (hvalid : config.Valid) (hname : config.NamesDescriptor) :
    Path.IsNormal request.pathname := by
  obtain ⟨_ | _, pathname⟩ := request
  · exact h
  · obtain ⟨names, hnames, rfl⟩ := h
    exact ⟨names, config.descriptorName, hnames,
      fun _ => ⟨hvalid.descriptorName_nonempty, hname.1, hname.2, hvalid.descriptorName_plain⟩, rfl⟩

/-- All requests are normal, and the pathnames of the compiled files are in normal form; each file
is stored under its own. -/
structure Session.Normal (config : Config) (session : Session) : Prop where
  requested : session.Requested (Request.IsNormal config)
  pathname_eq : ∀ {pathname file},
    session.compiled.get? pathname = some file → file.pathname = pathname
  compiled : ∀ {pathname file}, session.compiled.get? pathname = some file → IsNormal pathname

variable {config : Config}

/-- A file that is found is stored under its own pathname. -/
theorem Session.Normal.storedIn {session : Session} (h : session.Normal config) {pathname : Text}
    {file : CompiledFile} (hget : session.compiled.get? pathname = some file) :
    Dependency.StoredIn session.compiled (.module file) := by
  rw [Dependency.StoredIn, h.pathname_eq hget]
  exact hget

/-- A new session has neither requests nor files. -/
theorem Session.normal_initial (config : Config) : Session.initial.Normal config where
  requested request h := by simp [initial] at h
  pathname_eq h := by simp [initial] at h
  compiled h := by simp [initial] at h

namespace Compiler

variable {compiler : Compiler} {trace : Trace} {pathname reference : Text}
  {session after : Session}

/-! ## Loading -/

/-- A descriptor above a file in normal form is in a directory in normal form. -/
theorem isNormal_descriptor (hnormal : IsNormal pathname) {dir : Text}
    (hdir : dir ∈ ancestors (directory pathname)) :
    Request.IsNormal config ⟨.descriptor, dir ++ config.descriptorName⟩ := by
  obtain ⟨names, last, hrooted⟩ := hnormal
  rw [directory_of_rooted hrooted, ancestors_directoryAt hrooted.isName, enclosing,
    List.mem_reverse, List.mem_map] at hdir
  obtain ⟨above, habove, rfl⟩ := hdir
  have hinitial : above <+: names := (List.mem_inits _ _).1 habove
  exact ⟨above, fun name hmem => hrooted.isName name (hinitial.subset hmem), rfl⟩

/-- Loading a file in normal form keeps a session normal. -/
theorem normal_loadFile (hnormal : IsNormal pathname) :
    SessionM.Keeps (Session.Normal compiler.config) (compiler.loadFile pathname) := by
  intro session h
  have hcompiled := leavesCompiled_loadFile compiler pathname session
  refine ⟨?_, fun {pathname file} hget => ?_, fun {pathname file} hget => ?_⟩
  · exact keeps_requested_loadFile hnormal
      (fun dir hdir => isNormal_descriptor hnormal hdir) session h.requested
  · rw [hcompiled] at hget
    exact h.pathname_eq hget
  · rw [hcompiled] at hget
    exact h.compiled hget

/-- What a loaded file requires is in normal form, if it stands for a module. -/
theorem isNormal_of_mem_dependencies (hvalid : compiler.config.Valid) {loaded : LoadedFile}
    (hload : (compiler.loadFile pathname).exec session = (.ok loaded, after))
    (hmem : reference ∈ loaded.dependencies) (hne : reference ≠ ModuleId.absent) :
    IsNormal reference := by
  obtain ⟨_, _, settled, -, hsettle, rfl⟩ := exists_of_exec_loadFile hload
  obtain ⟨id, hid, rfl⟩ := List.mem_map.1 hmem
  exact Script.exists_rooted_of_mem_requiredIds hvalid hsettle hid hne

/-- So does publishing one. -/
theorem normal_publish {file : CompiledFile} (hnormal : IsNormal file.pathname) :
    SessionM.Keeps (Session.Normal config) (publish file) := by
  intro session h
  rw [exec_publish]
  split
  · exact h
  · refine ⟨h.requested, fun hget => ?_, fun hget => ?_⟩
    · rcases Table.of_get?_insert hget with ⟨rfl, rfl⟩ | hold
      · rfl
      · exact h.pathname_eq hold
    · rcases Table.of_get?_insert hget with ⟨rfl, -⟩ | hold
      · exact hnormal
      · exact h.compiled hold

/-- What publishing answers is found where the file is stored. -/
theorem get?_of_exec_publish {file stored : CompiledFile}
    (h : (publish file).exec session = (.ok stored, after)) :
    after.compiled.get? file.pathname = some stored := by
  rw [exec_publish] at h
  split at h
  · rename_i found hget
    obtain ⟨hfound, rfl⟩ := Prod.mk.inj h
    rw [hget, Except.ok.inj hfound]
  · obtain ⟨hfile, rfl⟩ := Prod.mk.inj h
    rw [Except.ok.inj hfile, Table.get?_insert, if_pos rfl]

/-! ## One compile -/

/-- A file that is opened has a pathname in normal form. -/
theorem isNormal_of_opens {compiled : Table CompiledFile}
    (hreference : reference ≠ ModuleId.absent → IsNormal reference)
    (h : trace.outlook reference compiled = .opens pathname) : IsNormal pathname := by
  obtain ⟨htarget, -, -⟩ := Trace.outlook_eq_opens_iff.1 h
  obtain ⟨names, last, hrooted⟩ := hreference (Trace.exists_of_target htarget).1
  exact Trace.rooted_target hrooted htarget

/-- A compile of a reference in normal form keeps the session normal, whatever the loader
answers. -/
theorem normal_compileWithin (hvalid : compiler.config.Valid) (depth : Nat) (trace : Trace)
    {reference : Text} (hreference : reference ≠ ModuleId.absent → IsNormal reference) :
    SessionM.Keeps (Session.Normal compiler.config)
      (compiler.compileWithin depth trace reference) := by
  induction depth generalizing trace reference with
  | zero => exact SessionM.keeps_throw _
  | succ depth ih =>
    intro session h
    rw [exec_compileWithin_succ]
    split
    · exact h
    · exact h
    · rename_i pathname houtlook
      have hpathname := isNormal_of_opens hreference houtlook
      have hkeeps : SessionM.Keeps (Session.Normal compiler.config)
          (compiler.openWith (compiler.compileWithin depth) trace pathname) := by
        -- the file is loaded, its imports are in normal form, and it is published under its
        -- pathname
        refine (normal_loadFile hpathname).bind fun _ loaded _ hload => ?_
        refine SessionM.Keeps.bind (SessionM.Keeps.mapM_of_mem fun required hmem =>
          ih _ (isNormal_of_mem_dependencies hvalid hload hmem)) fun _ children _ _ => ?_
        refine (normal_publish ?_).bind fun _ _ _ _ => SessionM.keeps_pure _
        rw [assemble, (of_exec_loadFile hload).1]
        exact hpathname
      exact hkeeps session h

/-- What a compile answers is stored in the session that it leaves. -/
theorem storedIn_compileWithin (hvalid : compiler.config.Valid) {depth : Nat}
    (hreference : reference ≠ ModuleId.absent → IsNormal reference)
    (h : session.Normal compiler.config)
    {dependency : Dependency CompiledFile}
    (hexec : (compiler.compileWithin depth trace reference).exec session =
      (.ok dependency, after)) :
    dependency.StoredIn after.compiled := by
  have hafter := normal_compileWithin hvalid depth trace hreference session h
  rw [hexec] at hafter
  cases depth with
  | zero => simp [compileWithin] at hexec
  | succ depth =>
    rw [exec_compileWithin_succ] at hexec
    split at hexec
    · simp at hexec
    · rename_i settled houtlook
      obtain ⟨rfl, rfl⟩ : settled = dependency ∧ session = after := by simpa using hexec
      rcases Trace.outlook_eq_settled_iff.1 houtlook with ⟨-, rfl⟩ | ⟨_, file, -, hget, rfl⟩
      · exact trivial
      · exact h.storedIn hget
    · -- what is answered is what publishing has answered
      rw [openWith] at hexec
      obtain ⟨loaded, opened, -, hrest⟩ := SessionM.exists_of_exec_bind_ok hexec
      obtain ⟨children, between, -, hlast⟩ := SessionM.exists_of_exec_bind_ok hrest
      obtain ⟨file, published, hpublish, hpure⟩ := SessionM.exists_of_exec_bind_ok hlast
      obtain ⟨rfl, rfl⟩ : .module file = dependency ∧ published = after := by simpa using hpure
      exact hafter.storedIn (get?_of_exec_publish hpublish)

/-! ## Entries and steps -/

/-- A compile of an entry keeps a session normal. -/
theorem normal_compile (hvalid : compiler.config.Valid) (entry : Text) :
    SessionM.Keeps (Session.Normal compiler.config) (compiler.compile entry) :=
  keeps_compile_of_entry
    (normal_compileWithin hvalid _ _ (exists_rooted_entryPathname hvalid))

/-- Whatever steps a compiler has performed, and whatever its loader has answered, its session is
normal. -/
theorem normal_after (compiler : Compiler) (hvalid : compiler.config.Valid) (steps : List Step) :
    (compiler.after steps).Normal compiler.config := by
  refine after_induct_of_perform (Session.normal_initial _) fun step _ session h => ?_
  refine keeps_perform (fun entry _ => normal_compile hvalid entry) ?_ h
  intro count entry _
  have hvalid' : (compiler.stoppingAfter count).config.Valid := hvalid
  exact normal_compile hvalid' entry

/-- The results of entries stand one for each entry, in order. What is no module has none, and a
result is the output of a file that is stored under its pathname. -/
theorem stored_of_compileAll (hvalid : compiler.config.Valid) {entries : List Text}
    {results : List (Option CompiledModule)} (h : session.Normal compiler.config)
    (hexec : (compiler.compileAll entries).exec session = (.ok results, after)) :
    after.Normal compiler.config ∧ results.length = entries.length ∧
      ∀ result, some result ∈ results →
      after.compiled.get? result.file.pathname = some result.file ∧
        result.code = Output.finalize compiler.config result.file := by
  rw [compileAll] at hexec
  induction entries generalizing session results with
  | nil =>
    obtain ⟨rfl, rfl⟩ : results = [] ∧ session = after := by simpa [eq_comm] using hexec
    exact ⟨h, rfl, by simp⟩
  | cons entry rest ih =>
    rw [List.mapM_cons] at hexec
    obtain ⟨result, between, hentry, htail⟩ := SessionM.exists_of_exec_bind_ok hexec
    obtain ⟨others, last, hrest, hpure⟩ := SessionM.exists_of_exec_bind_ok htail
    obtain ⟨rfl, rfl⟩ : result :: others = results ∧ last = after := by simpa using hpure
    have hbetween := normal_compile hvalid entry session h
    rw [hentry] at hbetween
    obtain ⟨hafter, hlength, hothers⟩ := ih hbetween hrest
    refine ⟨hafter, by rw [List.length_cons, List.length_cons, hlength], fun module hmem => ?_⟩
    rcases List.mem_cons.1 hmem with rfl | hmem
    · have hreference := exec_compileReference_of_result hentry
      have hstored := storedIn_compileWithin hvalid
        (exists_rooted_entryPathname hvalid) h hreference
      -- the entries that follow keep what this one has stored
      have hgrows : SessionM.Grows (rest.mapM compiler.compile) :=
        SessionM.Grows.mapM (fun other table =>
          keeps_compile (fun _ => grows_compileReference compiler _ _ table) other) rest
      exact ⟨hgrows.le_of_exec hrest _ _ hstored, code_of_result hentry⟩
    · exact hothers module hmem

end Compiler

end ModuleCompiler
