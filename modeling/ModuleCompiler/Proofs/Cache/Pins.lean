import ModuleCompiler.Proofs.Cache.Invariant

/-!
# Pins and chains of imports

The version of a package that a reference means depends on the files that lead to it, while a file
is compiled once and found by its pathname afterwards. So a compiled file answers its references for
the chain under which it was compiled first. Where it is found again below another chain, it stays
as it is, whatever that chain declares: its answers are answers for that chain exactly where both
chains mean the same (`Answers.iff_target_eq`), as they do without a version segment.

A file that a compile adds is added along a chain from its result, which is `LeadsTo`;
`leadsTo_compileReference` finds it by induction over the compile. That the answers cannot be had
for every chain is shown by two entries that pin different versions below a file they share.
-/

namespace ModuleCompiler

/-! ## Answers under two traces -/

section Answers

variable {trace other : Trace} {reference : Text} {dependency : Dependency CompiledFile}

/-- An answer under one trace is an answer under another when the reference means the same there. -/
theorem Dependency.Answers.iff_target_eq (h : dependency.Answers trace reference) :
    dependency.Answers other reference ↔ other.target reference = trace.target reference := by
  cases dependency with
  | module file =>
    have htarget : trace.target reference = .ok (some file.pathname) := h
    rw [htarget]
    exact Iff.rfl
  | absent kept =>
    obtain ⟨htarget, hkept⟩ := h
    rw [htarget]
    exact ⟨And.left, fun heq => ⟨heq, hkept⟩⟩

/-- Without a version segment a reference means the same under every trace. -/
theorem Trace.target_eq_of_unversioned (h : VersionedPath.parse reference = .ok none) :
    other.target reference = trace.target reference := by
  have hresolve : ∀ trace : Trace, resolveVersion reference trace = .ok (some reference) := by
    intro trace
    rw [resolveVersion, h]
  rw [Trace.target, Trace.target, hresolve, hresolve]

end Answers

/-! ## What a compile adds -/

/-- The file is the one of the dependency or below it, and it was compiled along the chain from the
trace through the dependency. -/
def Dependency.LeadsTo (config : Config) (source : Text → Reading) (entries : List Text)
    (trace : Trace) (found : CompiledFile) : Dependency CompiledFile → Prop
  | .module file => ∃ above, file.Chain (above ++ [found.frame]) found ∧
      found.CompiledAlong config source entries (trace ++ above)
  | .absent _ => False

namespace Compiler

variable {compiler : Compiler} {source : Text → Reading} {entries : List Text} {trace : Trace}
  {reference : Text} {session after : Session} {found : CompiledFile}

/-- A compile that comes up adds only files that its answer leads to. -/
def AddsBelow (compiler : Compiler) (source : Text → Reading) (entries : List Text)
    (trace : Trace) (reference : Text) (session : Session)
    (outcome : Except Halt (Dependency CompiledFile)) (after : Session) : Prop :=
  Asks compiler.config source entries trace reference →
  session.Invariant compiler.config source entries →
    ∀ dependency, outcome = .ok dependency →
      ∀ found : CompiledFile, session.compiled.get? found.pathname = none →
        after.compiled.get? found.pathname = some found →
          dependency.LeadsTo compiler.config source entries trace found

/-- What the imports of a file have added, one of them has. -/
theorem leadsTo_importRuns (hreads : compiler.Reads source) {required : List Text}
    {children : List (Dependency CompiledFile)}
    {outcome : Except Halt (List (Dependency CompiledFile))}
    (hruns : compiler.ImportRuns (compiler.AddsBelow source entries) trace required session
      outcome after)
    (houtcome : outcome = .ok children)
    (hasks : ∀ reference ∈ required, Asks compiler.config source entries trace reference)
    (h : session.Invariant compiler.config source entries)
    (hnew : session.compiled.get? found.pathname = none)
    (hget : after.compiled.get? found.pathname = some found) :
    ∃ child ∈ children, child.LeadsTo compiler.config source entries trace found := by
  induction hruns generalizing children with
  | nil => rw [hnew] at hget; simp at hget
  | halts head => simp at houtcome
  | haltsLater head tail ih => simp at houtcome
  | @cons reference rest session child between children' after head tail ih =>
      obtain rfl := Except.ok.inj houtcome
      have hhead := hasks reference List.mem_cons_self
      -- this import has compiled the file, or a later one has
      rcases hbetween : between.compiled.get? found.pathname with _ | stored
      · have hkept := (establishes_compileReference hreads head.1 hhead h).1
        obtain ⟨other, hmem, hleads⟩ := ih rfl
          (fun reference hmem => hasks reference (List.mem_cons_of_mem _ hmem)) hkept hbetween hget
        exact ⟨other, List.mem_cons_of_mem _ hmem, hleads⟩
      · -- what is stored by now stays, so it is the file itself
        obtain rfl : found = stored :=
          (Table.eq_of_get?_of_le (ImportRuns.le tail) hbetween hget).symm
        exact ⟨child, List.mem_cons_self, head.2 hhead h child rfl found hnew hbetween⟩

/-- A compile that comes up adds only files that its answer leads to: the file it publishes, and
what its imports have added. -/
theorem leadsTo_compileReference (hreads : compiler.Reads source)
    {outcome : Except Halt (Dependency CompiledFile)}
    (hexec : (compiler.compileReference trace reference).exec session = (outcome, after)) :
    compiler.AddsBelow source entries trace reference session outcome after := by
  refine compileReference_induct hreads.complete ?refused ?settled ?unloaded ?abandoned ?published
    hexec
  case refused =>
    intro trace reference session error _ _ _ dependency houtcome
    simp at houtcome
  case settled =>
    intro trace reference session settled _ _ _ dependency _ found hnew hget
    rw [hnew] at hget
    simp at hget
  case unloaded =>
    intro trace reference session pathname halt after _ _ _ _ dependency houtcome
    simp at houtcome
  case abandoned =>
    intro trace reference session pathname loaded opened halt after _ _ _ _ _ _ dependency houtcome
    simp at houtcome
  case published =>
    intro trace reference session pathname loaded opened children between houtlook hload hruns _
      hasks h dependency houtcome found hnew hget
    obtain rfl := Except.ok.inj houtcome
    obtain ⟨hopened, hcompiled, hrequired⟩ := invariant_loadFile hreads houtlook hload hasks h
    have halong := (compiledAlong_assemble hreads houtlook hload
      (hruns.imp fun _ _ _ _ _ hrun => ⟨hrun.1, establishes_compileReference hreads hrun.1⟩)
      hasks h).2.1
    obtain ⟨rfl, -⟩ := of_exec_loadFile hload
    rw [Table.get?_insert] at hget
    by_cases heq : found.pathname = loaded.pathname
    · -- the file that is put together last
      rw [if_pos heq] at hget
      obtain rfl := Option.some.inj hget
      exact ⟨[], .single _, by rwa [List.append_nil]⟩
    · rw [if_neg heq] at hget
      rw [← hcompiled] at hnew
      obtain ⟨child, hmem, hleads⟩ :=
        leadsTo_importRuns hreads hruns rfl hrequired hopened hnew hget
      -- the chain from the import is continued upwards by the file
      rcases child with file | absent
      · obtain ⟨above, hchain, hfound⟩ := hleads
        rw [List.append_assoc] at hfound
        exact ⟨⟨loaded.pathname, loaded.scope⟩ :: above, .cons hmem hchain, hfound⟩
      · exact hleads.elim

/-! ## The chains of a result -/

/-- Whatever steps a compiler of a fixed set of files has performed, in the result of a compile each
file was compiled along one chain of imports, from an entry that was compiled by then: under it,
every dependency is what the reference means, and no constraints conflict. For a file that was not
compiled before, that chain leads from the entry of this compile to the file through the children.
Under another chain to the file, a dependency is what the reference means exactly when the reference
means the same there, as it does without a version segment. -/
theorem pins_along_first_chain (config : Config) (files failures : Table Text) (steps : List Step)
    (entry : Text) (result : CompiledModule) (after : Session)
    (hexec : ((ofFiles config files failures).compile entry).exec
      ((ofFiles config files failures).after steps) = (.ok (some result), after))
    (frames : Trace) (file : CompiledFile) (hchain : result.file.Chain frames file) :
    ∃ trace, file.CompiledAlong config (Loader.readFiles files failures)
        (entry :: steps.flatMap Step.entries) trace ∧
      (((ofFiles config files failures).after steps).compiled.get? file.pathname = none →
        result.file.Chain (trace ++ [file.frame]) file) ∧
      ∀ reference child, (reference, child) ∈ file.dependencies.zip file.children →
        (child.Answers frames reference ↔
          frames.target reference = Trace.target (trace ++ [file.frame]) reference) ∧
        (VersionedPath.parse reference = .ok none → child.Answers frames reference) := by
  have hreads := (readsAlways_ofFiles config files failures).toReads
  have h := invariant_after hreads (List.subset_cons_self entry (steps.flatMap Step.entries))
  -- the result is what the pathname of the entry means, and is stored with all below it
  have hcompile := exec_compileReference_of_result hexec
  obtain ⟨hkept, hstored⟩ :=
    establishes_compileReference hreads hcompile (.entry List.mem_cons_self) h
  have hresult : after.compiled.get? result.file.pathname = some result.file :=
    (hstored _ rfl).2
  have hfile := hkept.get?_of_chain hresult hchain
  -- one chain along which the file was compiled
  have hfirst : ∃ trace, file.CompiledAlong config (Loader.readFiles files failures)
        (entry :: steps.flatMap Step.entries) trace ∧
      (((ofFiles config files failures).after steps).compiled.get? file.pathname = none →
        result.file.Chain (trace ++ [file.frame]) file) := by
    rcases hbefore : ((ofFiles config files failures).after steps).compiled.get? file.pathname
      with _ | stored
    · obtain ⟨above, habove, halong⟩ :=
        leadsTo_compileReference hreads hcompile (.entry List.mem_cons_self) h _ rfl file hbefore
          hfile
      exact ⟨above, halong, fun _ => habove⟩
    · obtain ⟨trace, halong⟩ := hkept.compiledAlong hfile
      exact ⟨trace, halong, by simp⟩
  obtain ⟨trace, halong, hnew⟩ := hfirst
  refine ⟨trace, halong, hnew, fun reference child hmem => ?_⟩
  have hanswers : child.Answers (trace ++ [file.frame]) reference :=
    (List.forall₂_iff_zip.1 halong.answers).2 hmem
  refine ⟨hanswers.iff_target_eq, fun hparse => ?_⟩
  exact hanswers.iff_target_eq.2 (Trace.target_eq_of_unversioned hparse)

/-! ## Chains that disagree -/

/-- Two files that pin different versions of a package, and share a file that accepts both. -/
def disagreeingFiles : Table Text := .ofList [
  ("/first/package.json", "\x7b\"alias\": \x7b\"x\": \"lib/x/1.0.0/x\"\x7d\x7d"),
  ("/first/main.js", "define(function () \x7b require('#shared'); \x7d);"),
  ("/second/package.json", "\x7b\"alias\": \x7b\"x\": \"lib/x/2.0.0/x\"\x7d\x7d"),
  ("/second/main.js", "define(function () \x7b require('#shared'); \x7d);"),
  ("/shared.js", "require('#lib/x/1.0.0+/x');"),
  ("/lib/x/1.0.0/x.js", ""),
  ("/lib/x/2.0.0/x.js", "")]

/-- The file of the child at a place. -/
def childAt? (file : CompiledFile) (place : Nat) : Option CompiledFile :=
  file.children[place]?.bind Dependency.file?

/-- The child at a place is one of the children. -/
theorem getElem?_of_childAt? {file child : CompiledFile} {place : Nat}
    (h : childAt? file place = some child) : file.children[place]? = some (.module child) := by
  obtain ⟨dependency, hget, hfile⟩ := Option.bind_eq_some_iff.1 h
  rcases dependency with stored | reference
  · rw [hget, Option.some.inj hfile]
  · simp [Dependency.file?] at hfile

/-- A result that is taken out of a run is what the run has answered. -/
theorem exec_eq_of_toOption_join {action : SessionM (Option CompiledModule)} {session : Session}
    {result : CompiledModule} (h : (action.exec session).1.toOption.join = some result) :
    ∃ after, action.exec session = (.ok (some result), after) := by
  rcases hexec : action.exec session with ⟨halt | answer, after⟩
  · rw [hexec] at h
    simp [Except.toOption] at h
  · rw [hexec] at h
    obtain rfl : answer = some result := by simpa [Except.toOption] using h
    exact ⟨after, rfl⟩

/-- After the first of the two files, a compile of the second one finds the shared file with the
version that the first has pinned. -/
theorem exec_disagreeingFiles :
    ∃ result after shared pinned,
      ((ofFiles .standard disagreeingFiles .empty).compile "#second/main").exec
        ((ofFiles .standard disagreeingFiles .empty).after [.compile "#first/main"])
          = (.ok (some result), after) ∧
      childAt? result.file 0 = some shared ∧ childAt? shared 0 = some pinned ∧
      shared.dependencies = ["/lib/x/1.0.0+/x.js".toList] ∧
      pinned.pathname = "/lib/x/1.0.0/x.js".toList ∧
      Trace.target [result.file.frame, shared.frame] "/lib/x/1.0.0+/x.js" =
        .ok (some "/lib/x/2.0.0/x.js".toList) := by
  -- the walk to the pinned file is evaluated as one closed term
  have hwalk : (do
      let result ← (((ofFiles .standard disagreeingFiles .empty).compile "#second/main").exec
        ((ofFiles .standard disagreeingFiles .empty).after
          [.compile "#first/main"])).1.toOption.join
      let shared ← childAt? result.file 0
      let pinned ← childAt? shared 0
      some (shared.dependencies, pinned.pathname,
        Trace.target [result.file.frame, shared.frame] "/lib/x/1.0.0+/x.js")) =
      some (["/lib/x/1.0.0+/x.js".toList], "/lib/x/1.0.0/x.js".toList,
        .ok (some "/lib/x/2.0.0/x.js".toList)) := by
    decide +kernel
  simp only [Option.bind_eq_bind, Option.bind_eq_some_iff, Option.some.injEq, Prod.mk.injEq]
    at hwalk
  obtain ⟨result, hresult, shared, hshared, pinned, hpinned, hvalues⟩ := hwalk
  obtain ⟨after, hexec⟩ := exec_eq_of_toOption_join hresult
  exact ⟨result, after, shared, pinned, hexec, hshared, hpinned, hvalues⟩

theorem pins_along_first_chain_disagreeingFiles :
    ∃ result after shared trace,
      ((ofFiles .standard disagreeingFiles .empty).compile "#second/main").exec
        ((ofFiles .standard disagreeingFiles .empty).after [.compile "#first/main"])
          = (.ok (some result), after) ∧
      result.file.Chain [result.file.frame, shared.frame] shared ∧
      shared.CompiledAlong .standard (Loader.readFiles disagreeingFiles .empty)
        ["#second/main", "#first/main"] trace := by
  obtain ⟨result, after, shared, pinned, hexec, hshared, -⟩ := exec_disagreeingFiles
  have hchain : result.file.Chain [result.file.frame, shared.frame] shared :=
    .cons (List.mem_of_getElem? (getElem?_of_childAt? hshared)) (.single shared)
  obtain ⟨trace, halong, -⟩ := pins_along_first_chain .standard disagreeingFiles .empty
    [.compile "#first/main"] "#second/main" result after hexec _ shared hchain
  exact ⟨result, after, shared, trace, hexec, hchain, halong⟩

/-- A result need not answer for every chain of imports through its children. -/
theorem not_answers_along_second_chain :
    ∃ result after frames file reference child,
      ((ofFiles .standard disagreeingFiles .empty).compile "#second/main").exec
        ((ofFiles .standard disagreeingFiles .empty).after [.compile "#first/main"])
          = (.ok (some result), after) ∧
      result.file.Chain frames file ∧ (reference, child) ∈ file.dependencies.zip file.children ∧
      ¬ child.Answers frames reference := by
  obtain ⟨result, after, shared, pinned, hexec, hshared, hpinned, hdependencies, hpathname,
    htarget⟩ := exec_disagreeingFiles
  have hchain : result.file.Chain [result.file.frame, shared.frame] shared :=
    .cons (List.mem_of_getElem? (getElem?_of_childAt? hshared)) (.single shared)
  have hplace : (shared.dependencies.zip shared.children)[0]? =
      some ("/lib/x/1.0.0+/x.js".toList, .module pinned) := by
    rw [hdependencies, List.getElem?_zip_eq_some]
    exact ⟨rfl, getElem?_of_childAt? hpinned⟩
  refine ⟨result, after, _, shared, _, _, hexec, hchain, List.mem_of_getElem? hplace, ?_⟩
  intro hanswers
  have hmeant : Trace.target [result.file.frame, shared.frame] "/lib/x/1.0.0+/x.js" =
      .ok (some pinned.pathname) := hanswers
  rw [htarget, hpathname] at hmeant
  simp at hmeant

end Compiler

end ModuleCompiler
