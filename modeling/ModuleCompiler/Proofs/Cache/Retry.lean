import ModuleCompiler.Proofs.Cache.Pins
import ModuleCompiler.Proofs.Compile.Cut
import ModuleCompiler.Proofs.Compile.Nesting

/-!
# Compiling again

A compile that was abandoned, or has failed, leaves some of the files that the full compile
compiles. The next compile finds them compiled and goes on elsewhere as before, so it ends as the
full compile does: the files left behind were compiled under the very traces that come up again.

The argument compares two runs of one compile, the second from a session that lies between the start
and the end of the first (`Session.Between`). `Resumes` says that the second run ends as the first
did and leaves the same bounds, and `resumes_compileReference` shows it by induction over the first.
-/

namespace ModuleCompiler

/-- The session holds what `least` has and no more than `most`. -/
structure Session.Between (config : Config) (source : Text → Reading) (entries : List Text)
    (least most : Table CompiledFile) (session : Session) : Prop where
  invariant : session.Invariant config source entries
  least_le : least ≤ session.compiled
  le_most : session.compiled ≤ most

/-- Bounds on the compiled files hold of every session with the same ones. -/
theorem Session.Between.of_compiled_eq {config : Config} {source : Text → Reading}
    {entries : List Text} {least most : Table CompiledFile} {session after : Session}
    (h : session.Between config source entries least most)
    (hcompiled : after.compiled = session.compiled) (hscopes : after.ScopesFrom config source) :
    after.Between config source entries least most where
  invariant := h.invariant.of_compiled_eq hcompiled hscopes
  least_le := hcompiled ▸ h.least_le
  le_most := hcompiled ▸ h.le_most

namespace Compiler

variable {compiler : Compiler} {source : Text → Reading} {entries : List Text} {trace : Trace}
  {reference : Text} {session after larger : Session} {most : Table CompiledFile}

/-! ## Loading from another session -/

/-- A file is loaded alike from every session. -/
theorem exec_loadFile_of_between (hreads : compiler.ReadsAlways source) {pathname : Text}
    {least : Table CompiledFile} {outcome : Except Halt LoadedFile}
    (h : session.Invariant compiler.config source entries)
    (hload : (compiler.loadFile pathname).exec session = (outcome, after))
    (hlarger : larger.Between compiler.config source entries least most) :
    ∃ opened, (compiler.loadFile pathname).exec larger = (outcome, opened) ∧
      opened.Between compiler.config source entries least most := by
  obtain ⟨opened, hscopes, hopened⟩ :=
    exec_loadFile_alike hreads h.scopes hlarger.invariant.scopes hload
  have hcompiled := (leavesCompiled_loadFile compiler _).of_exec hopened
  exact ⟨opened, hopened, hlarger.of_compiled_eq hcompiled hscopes⟩

/-! ## Compiling from another session -/

/-- The compile ends alike from every session that holds what it starts from and no more than
`most`, which holds what it leaves, and only that where it halts. It leaves the same bounds there.
-/
def Resumes (compiler : Compiler) (source : Text → Reading) (entries : List Text)
    (trace : Trace) (reference : Text) (session : Session)
    (outcome : Except Halt (Dependency CompiledFile)) (after : Session) : Prop :=
  (compiler.compileReference trace reference).exec session = (outcome, after) →
  Asks compiler.config source entries trace reference →
  session.Invariant compiler.config source entries →
    ∀ (larger : Session) (most : Table CompiledFile),
      larger.Between compiler.config source entries session.compiled most → after.compiled ≤ most →
      (∀ halt, outcome = .error halt → most ≤ after.compiled) →
        ∃ last, (compiler.compileReference trace reference).exec larger = (outcome, last) ∧
          last.Between compiler.config source entries after.compiled most

/-- So do the imports of a file together. -/
theorem resumes_importRuns (hreads : compiler.ReadsAlways source) {required : List Text}
    {outcome : Except Halt (List (Dependency CompiledFile))}
    (hruns : compiler.ImportRuns (compiler.Resumes source entries) trace required session
      outcome after)
    (hasks : ∀ reference ∈ required, Asks compiler.config source entries trace reference)
    (h : session.Invariant compiler.config source entries)
    (hlarger : larger.Between compiler.config source entries session.compiled most)
    (hmost : after.compiled ≤ most)
    (herror : ∀ halt, outcome = .error halt → most ≤ after.compiled) :
    ∃ last, (required.mapM (compiler.compileReference trace)).exec larger = (outcome, last) ∧
      last.Between compiler.config source entries after.compiled most := by
  -- along both runs: after each import the sessions are between the same bounds again
  induction hruns generalizing larger with
  | nil => exact ⟨larger, rfl, hlarger⟩
  -- a halt ends both runs, and the bounds at the halt are the ones given
  | halts head =>
      obtain ⟨last, hlast, hbetween⟩ := head.2 head.1 (hasks _ List.mem_cons_self) h larger most
        hlarger hmost fun halt hhalt => herror halt (by rw [Except.error.inj hhalt])
      exact ⟨last, by rw [List.mapM_cons, SessionM.exec_bind_error hlast], hbetween⟩
  | @haltsLater reference rest session child between halt after head tail ih =>
      have hhead := hasks reference List.mem_cons_self
      have hkept := (establishes_compileReference hreads.toReads head.1 hhead h).1
      have hle : between.compiled ≤ after.compiled := ImportRuns.le tail
      obtain ⟨next, hnext, hbetween⟩ := head.2 head.1 hhead h larger most hlarger
        (Table.le_trans hle hmost) (by simp)
      obtain ⟨last, hlast, hafter⟩ := ih
        (fun reference hmem => hasks reference (List.mem_cons_of_mem _ hmem)) hkept hbetween hmost
        herror
      refine ⟨last, ?_, hafter⟩
      rw [List.mapM_cons, SessionM.exec_bind_ok hnext, SessionM.exec_bind_error hlast]
  | @cons reference rest session child between children after head tail ih =>
      have hhead := hasks reference List.mem_cons_self
      have hkept := (establishes_compileReference hreads.toReads head.1 hhead h).1
      have hle : between.compiled ≤ after.compiled := ImportRuns.le tail
      obtain ⟨next, hnext, hbetween⟩ := head.2 head.1 hhead h larger most hlarger
        (Table.le_trans hle hmost) (by simp)
      obtain ⟨last, hlast, hafter⟩ := ih
        (fun reference hmem => hasks reference (List.mem_cons_of_mem _ hmem)) hkept hbetween hmost
        (by simp)
      refine ⟨last, ?_, hafter⟩
      rw [List.mapM_cons, SessionM.exec_bind_ok hnext, SessionM.exec_bind_ok hlast,
        SessionM.exec_pure]

/-- Where the file of a compile is compiled, all that the compile adds is. -/
theorem between_of_answer (hreads : compiler.Reads source) {file : CompiledFile}
    (hexec : (compiler.compileReference trace reference).exec session = (.ok (.module file), after))
    (hasks : Asks compiler.config source entries trace reference)
    (h : session.Invariant compiler.config source entries)
    (hlarger : larger.Between compiler.config source entries session.compiled most)
    (hget : larger.compiled.get? file.pathname = some file) :
    larger.Between compiler.config source entries after.compiled most := by
  refine ⟨hlarger.invariant, fun key found hfound => ?_, hlarger.le_most⟩
  obtain rfl := (establishes_compileReference hreads hexec hasks h).1.pathname_eq hfound
  -- a file is older than the compile, or the compile has added it; then a chain leads to it
  rcases hbefore : session.compiled.get? found.pathname with _ | earlier
  · obtain ⟨above, hchain, -⟩ :=
      leadsTo_compileReference hreads hexec hasks h _ rfl found hbefore hfound
    exact hlarger.invariant.get?_of_chain hget hchain
  · have hle := (grows_compileReference compiler _ _).le_of_exec hexec
    obtain rfl := Table.eq_of_get?_of_le hle hbefore hfound
    exact hlarger.least_le _ _ hbefore

section Opens

variable {pathname : Text} {loaded : LoadedFile} {opened : Session} {halt : Halt}

/-- A file that another session does not have either is read there too, and its imports run there to
the same end. -/
theorem exists_exec_of_between (hreads : compiler.ReadsAlways source)
    {outcome : Except Halt (List (Dependency CompiledFile))} {between : Session}
    (houtlook : trace.outlook reference session.compiled = .opens pathname)
    (hload : (compiler.loadFile pathname).exec session = (.ok loaded, opened))
    (hruns : compiler.ImportRuns (compiler.Resumes source entries)
      (trace ++ [⟨pathname, loaded.scope⟩]) loaded.dependencies opened outcome between)
    (hasks : Asks compiler.config source entries trace reference)
    (h : session.Invariant compiler.config source entries)
    (hlarger : larger.Between compiler.config source entries session.compiled most)
    (hmost : between.compiled ≤ most)
    (herror : ∀ halt, outcome = .error halt → most ≤ between.compiled) :
    ∃ next last, (compiler.loadFile pathname).exec larger = (.ok loaded, next) ∧
      (loaded.dependencies.mapM (compiler.compileReference
        (trace ++ [⟨pathname, loaded.scope⟩]))).exec next = (outcome, last) ∧
      last.Between compiler.config source entries between.compiled most := by
  obtain ⟨hopened, hcompiled, hrequired⟩ :=
    invariant_loadFile hreads.toReads houtlook hload hasks h
  obtain ⟨next, hnext, hbetween⟩ := exec_loadFile_of_between hreads h hload hlarger
  rw [← hcompiled] at hbetween
  obtain ⟨last, hlast, hafter⟩ :=
    resumes_importRuns hreads hruns hrequired hopened hbetween hmost herror
  exact ⟨next, last, hnext, hlast, hafter⟩

/-- A file that cannot be loaded cannot be loaded elsewhere. -/
theorem resumes_of_unloaded (hreads : compiler.ReadsAlways source)
    (houtlook : trace.outlook reference session.compiled = .opens pathname)
    (hload : (compiler.loadFile pathname).exec session = (.error halt, after)) :
    compiler.Resumes source entries trace reference session (.error halt) after := by
  intro _ _ h larger most hlarger _ herror
  obtain ⟨-, habsent, -⟩ := Trace.outlook_eq_opens_iff.1 houtlook
  have hcompiled := (leavesCompiled_loadFile compiler _).of_exec hload
  rw [← hcompiled] at habsent
  have hnone := Table.get?_eq_none_of_le (Table.le_trans hlarger.le_most (herror _ rfl)) habsent
  obtain ⟨last, hlast, hbetween⟩ := exec_loadFile_of_between hreads h hload hlarger
  have hthere := Trace.outlook_eq_opens_of_absent houtlook hnone
  exact ⟨last, exec_of_unloaded hreads.complete hthere hlast, hcompiled ▸ hbetween⟩

/-- A file whose imports halt was not published, so no other session has it and the same import
halts there. -/
theorem resumes_of_abandoned (hreads : compiler.ReadsAlways source)
    (houtlook : trace.outlook reference session.compiled = .opens pathname)
    (hload : (compiler.loadFile pathname).exec session = (.ok loaded, opened))
    (hruns : compiler.ImportRuns (compiler.Resumes source entries)
      (trace ++ [⟨pathname, loaded.scope⟩]) loaded.dependencies opened (.error halt) after)
    (habsent : after.compiled.get? pathname = none) :
    compiler.Resumes source entries trace reference session (.error halt) after := by
  intro _ hasks h larger most hlarger hmost herror
  have hnone := Table.get?_eq_none_of_le (Table.le_trans hlarger.le_most (herror _ rfl)) habsent
  obtain ⟨next, last, hnext, hlast, hafter⟩ := exists_exec_of_between hreads houtlook hload hruns
    hasks h hlarger hmost fun other hother => herror other (by rw [Except.error.inj hother])
  have hthere := Trace.outlook_eq_opens_of_absent houtlook hnone
  exact ⟨last, exec_of_abandoned hreads.complete hthere hnext hlast, hafter⟩

/-- A file that is published is either published elsewhere as well, or found there with all that its
compile adds below it. -/
theorem resumes_of_published (hreads : compiler.ReadsAlways source)
    {children : List (Dependency CompiledFile)} {between : Session}
    (houtlook : trace.outlook reference session.compiled = .opens pathname)
    (hload : (compiler.loadFile pathname).exec session = (.ok loaded, opened))
    (hruns : compiler.ImportRuns (compiler.Resumes source entries)
      (trace ++ [⟨pathname, loaded.scope⟩]) loaded.dependencies opened (.ok children) between)
    (habsent : between.compiled.get? pathname = none) :
    compiler.Resumes source entries trace reference session
      (.ok (.module (compiler.assemble loaded children)))
      { between with
        compiled := between.compiled.insert pathname (compiler.assemble loaded children) } := by
  intro hexec hasks h larger most hlarger hmost _
  have hfile : most.get? pathname = some (compiler.assemble loaded children) :=
    hmost _ _ (by rw [Table.get?_insert, if_pos rfl])
  rcases hget : larger.compiled.get? pathname with _ | stored
  · -- the file has to be read there too
    obtain ⟨next, last, hnext, hlast, hafter⟩ := exists_exec_of_between hreads houtlook hload hruns
      hasks h hlarger (Table.le_trans (Table.le_insert _ habsent) hmost) (by simp)
    have hthere := exec_of_published hreads.complete
      (Trace.outlook_eq_opens_of_absent houtlook hget) hnext hlast
    refine ⟨_, hthere, ?_, ?_, ?_⟩
    · exact (establishes_compileReference hreads.toReads hthere hasks hlarger.invariant).1
    · exact Table.insert_le_insert _ _ hafter.least_le
    · exact Table.insert_le hafter.le_most hfile
  · -- the file is found there: what was compiled below it is there as well
    obtain rfl : stored = compiler.assemble loaded children :=
      Table.eq_of_get?_of_le hlarger.le_most hget hfile
    obtain ⟨htarget, -, -⟩ := Trace.outlook_eq_opens_iff.1 houtlook
    have hthere : trace.outlook reference larger.compiled =
        .settled (.module (compiler.assemble loaded children)) :=
      Trace.outlook_eq_settled_iff.2 (.inr ⟨_, _, htarget, hget, rfl⟩)
    obtain ⟨rfl, -⟩ := of_exec_loadFile hload
    refine ⟨larger, by rw [exec_compileReference hreads.complete, hthere], ?_⟩
    exact between_of_answer hreads.toReads hexec hasks h hlarger hget

end Opens

/-- A compile ends alike from every session between its start and its end. -/
theorem resumes_compileReference (hreads : compiler.ReadsAlways source)
    {outcome : Except Halt (Dependency CompiledFile)}
    (hexec : (compiler.compileReference trace reference).exec session = (outcome, after)) :
    compiler.Resumes source entries trace reference session outcome after := by
  have hcomplete := hreads.complete
  refine compileReference_induct hcomplete ?refused ?settled ?unloaded ?abandoned ?published hexec
  case refused =>
    intro trace reference session error houtlook _ _ _ larger most hlarger _ herror
    -- the two sessions have the same compiled files
    have hsame := Table.get?_eq_of_le_of_le hlarger.least_le
      (Table.le_trans hlarger.le_most (herror _ rfl))
    rw [Trace.outlook_congr fun pathname _ => hsame pathname] at houtlook
    exact ⟨larger, by rw [exec_compileReference hcomplete, houtlook], hlarger⟩
  case settled =>
    intro trace reference session dependency houtlook _ _ _ larger most hlarger _ _
    have hthere : trace.outlook reference larger.compiled = .settled dependency := by
      rw [Trace.outlook_eq_settled_iff] at houtlook ⊢
      rcases houtlook with habsent | ⟨pathname, file, htarget, hget, heq⟩
      · exact .inl habsent
      · exact .inr ⟨pathname, file, htarget, hlarger.least_le _ _ hget, heq⟩
    exact ⟨larger, by rw [exec_compileReference hcomplete, hthere], hlarger⟩
  case unloaded =>
    intro trace reference session pathname halt after houtlook hload
    exact resumes_of_unloaded hreads houtlook hload
  case abandoned =>
    intro trace reference session pathname loaded opened halt after houtlook hload hruns habsent
    exact resumes_of_abandoned hreads houtlook hload hruns habsent
  case published =>
    intro trace reference session pathname loaded opened children between houtlook hload hruns
      habsent
    exact resumes_of_published hreads houtlook hload hruns habsent

/-! ## Retries -/

/-- A compile of an entry ends alike from every session between its start and its end. -/
theorem exec_compile_of_between (hreads : compiler.ReadsAlways source) {entry : Text}
    (hentry : entry ∈ entries) (h : session.Invariant compiler.config source entries)
    (hlarger : larger.Between compiler.config source entries session.compiled
      ((compiler.compile entry).exec session).2.compiled) :
    ((compiler.compile entry).exec larger).1 = ((compiler.compile entry).exec session).1 := by
  rw [exec_compile_snd] at hlarger
  rcases hexec : (compiler.compileReference [] (entryPathname compiler.config entry)).exec session
    with ⟨outcome, after⟩
  rw [hexec] at hlarger
  obtain ⟨last, hlast, -⟩ := resumes_compileReference hreads hexec hexec (.entry hentry) h larger
    after.compiled hlarger (Table.le_refl _) fun _ _ => Table.le_refl _
  exact exec_compile_fst_congr hexec hlast

/-- A compile of an entry ends alike after one of it that was abandoned. -/
theorem exec_compile_of_abandoned (hreads : compiler.ReadsAlways source) {entry : Text}
    (hentry : entry ∈ entries) (count : Nat)
    (h : session.Invariant compiler.config source entries) :
    ((compiler.compile entry).exec
        (compiler.perform session (.compileAnswering count entry))).1 =
      ((compiler.compile entry).exec session).1 := by
  refine exec_compile_of_between hreads hentry h
    ⟨invariant_perform hreads.toReads h (List.cons_subset.2 ⟨hentry, List.nil_subset _⟩),
      le_perform compiler session _, ?_⟩
  have hcut := cut_compileReference compiler (session.requests.length + count) []
    (entryPathname compiler.config entry)
  rw [perform, exec_compileAnswering, exec_compile_snd, exec_compile_snd, config_stoppingAfter]
  exact hcut.le session

/-- A compile of an entry ends alike after one of it that has ended. -/
theorem exec_compile_of_ended (hreads : compiler.ReadsAlways source) {entry : Text}
    (hentry : entry ∈ entries) (h : session.Invariant compiler.config source entries) :
    ((compiler.compile entry).exec (compiler.perform session (.compile entry))).1 =
      ((compiler.compile entry).exec session).1 := by
  refine exec_compile_of_between hreads hentry h
    ⟨invariant_perform hreads.toReads h (List.cons_subset.2 ⟨hentry, List.nil_subset _⟩),
      le_perform compiler session _, ?_⟩
  rw [perform]
  exact Table.le_refl _

/-- Whatever steps a compiler of a fixed set of files has performed: a compile of an entry, which
ends with a result or with an error, ends the same after a compile of it that was abandoned at any
request, and after a compile of it that has ended, with a result or with an error. -/
theorem retry_compile (config : Config) (files failures : Table Text) (steps : List Step)
    (entry : Text) (count : Nat) :
    let compiler := ofFiles config files failures
    let session := compiler.after steps
    let ending := ((compiler.compile entry).exec session).1
    (∃ answer : Except CompileError (Option CompiledModule), ending = answer.mapError .failed) ∧
      ((compiler.compile entry).exec
        (compiler.perform session (.compileAnswering count entry))).1 = ending ∧
      ((compiler.compile entry).exec (compiler.perform session (.compile entry))).1 = ending := by
  intro compiler session ending
  have hreads := readsAlways_ofFiles config files failures
  have h := invariant_after hreads.toReads
    (List.subset_cons_self entry (steps.flatMap Step.entries))
  refine ⟨answers_compile hreads.answers hreads.complete entry session, ?_, ?_⟩
  · exact exec_compile_of_abandoned hreads List.mem_cons_self count h
  · exact exec_compile_of_ended hreads List.mem_cons_self h

end Compiler

end ModuleCompiler
