import Mathlib.Data.List.Chain
import ModuleCompiler.Proofs.Compile.Induction

/-!
# How deep imports nest

A compile calls itself for each reference of a file that it reads, and the references come out of
texts. It ends all the same: every call hands down a trace with one more file, which was read and
was not in the trace before. So there are at most as many calls inside each other as there are files
left to read, and one more.

The session plays no part in this. Whatever it holds as compiled, a look-up in it ends a call and
never starts one. `Makes` relates a call to the calls that it makes, on the sessions that it makes
them on, so a stack of calls is a chain of this relation, and any measure that falls at an import
bounds its length (`length_le_of_isChain`).
-/

namespace ModuleCompiler

/-! ## Actions that end with an answer -/

namespace SessionM

variable {α β : Type}

/-- On every session the action ends with a value or with an error of the compile, and neither at a
request nor at a bound. -/
def Answers (action : SessionM α) : Prop :=
  ∀ session, ∃ answer : Except CompileError α, (action.exec session).1 = answer.mapError .failed

/-- A computation has a value or an error. -/
theorem answers_ofExcept (result : Except CompileError α) : Answers (ofExcept result) :=
  fun session => ⟨result, by rw [exec_ofExcept]⟩

/-- A value is an answer. -/
theorem answers_pure (value : α) : Answers (pure value) :=
  answers_ofExcept (.ok value)

/-- Where such an action halts, it does so with an error of the compile. -/
theorem Answers.exists_of_error {action : SessionM α} {session after : Session} {halt : Halt}
    (h : Answers action) (hexec : action.exec session = (.error halt, after)) :
    ∃ error, halt = .failed error := by
  obtain ⟨answer, hanswer⟩ := h session
  rw [hexec] at hanswer
  rcases answer with error | value
  · exact ⟨error, Except.error.inj hanswer⟩
  · exact absurd hanswer (by rintro ⟨⟩)

/-- Actions that end with an answer may be composed. -/
theorem Answers.bind {action : SessionM α} {next : α → SessionM β} (h : Answers action)
    (hnext : ∀ value, Answers (next value)) : Answers (action >>= next) := by
  intro session
  rcases hexec : action.exec session with ⟨halt | value, between⟩
  · obtain ⟨error, rfl⟩ := h.exists_of_error hexec
    rw [exec_bind_error hexec]
    exact ⟨.error error, rfl⟩
  · rw [exec_bind_ok hexec]
    exact hnext value between

/-- A loader that always answers lets every request end with an answer. -/
theorem answers_request {loader : Loader} (hloader : ∀ before pathname,
      loader.read before pathname ≠ .pending) (purpose : Purpose) (pathname : Text) :
    Answers (request loader purpose pathname) := by
  intro session
  rw [exec_request]
  rcases hread : loader.read session.requests.length pathname with text | _ | cause | _
  · exact ⟨.ok (some text), rfl⟩
  · exact ⟨.ok none, rfl⟩
  · exact ⟨.error (.unreadable pathname cause), rfl⟩
  · exact absurd hread (hloader _ _)

/-- A run over a list that halts has halted at one of its inputs. -/
theorem Sequence.exists_of_error {R : α → Session → Except Halt β → Session → Prop}
    {inputs : List α} {session after : Session} {outcome : Except Halt (List β)} {halt : Halt}
    (h : Sequence R inputs session outcome after) (hhalt : outcome = .error halt) :
    ∃ input ∈ inputs, ∃ before last, R input before (.error halt) last := by
  induction h with
  | nil => simp at hhalt
  | halts head =>
      obtain rfl := Except.error.inj hhalt
      exact ⟨_, List.mem_cons_self, _, _, head⟩
  | haltsLater _ _ ih =>
      obtain ⟨input, hmem, hrun⟩ := ih hhalt
      exact ⟨input, List.mem_cons_of_mem _ hmem, hrun⟩
  | cons => simp at hhalt

end SessionM

namespace Compiler

variable {compiler : Compiler} {trace : Trace} {reference : Text}

section Answers

variable (hloader : ∀ before pathname, compiler.loader.read before pathname ≠ .pending)
include hloader

/-- So does the walk over the directories. -/
theorem answers_nearestScope (dirs : List Text) :
    SessionM.Answers (compiler.nearestScope dirs) := by
  induction dirs with
  | nil => exact SessionM.answers_pure _
  | cons dir above ih =>
      rw [nearestScope]
      refine (SessionM.answers_request hloader _ _).bind ?_
      rintro (_ | text)
      · exact ih
      · exact SessionM.answers_ofExcept _

/-- So does the look-up that remembers scopes. -/
theorem answers_scopeOf (dir : Text) : SessionM.Answers (compiler.scopeOf dir) := by
  intro session
  rw [scopeOf, SessionM.exec_bind_ok (SessionM.exec_get session)]
  rcases session.scopes.get? dir with _ | scope
  · have hwalk := answers_nearestScope hloader (Path.ancestors dir)
    exact hwalk.bind (fun scope session => ⟨.ok scope, rfl⟩) session
  · exact ⟨.ok scope, rfl⟩

/-- So does loading a file. -/
theorem answers_loadFile (pathname : Text) : SessionM.Answers (compiler.loadFile pathname) := by
  rw [loadFile]
  refine (SessionM.answers_request hloader _ _).bind ?_
  rintro (_ | text)
  · exact fun _ => ⟨.error (.notFound pathname), rfl⟩
  · refine (answers_scopeOf hloader _).bind fun scope => ?_
    exact (SessionM.answers_ofExcept _).bind fun settled => SessionM.answers_pure _

/-- A compile ends with an answer on every session, under every trace. -/
theorem answers_compileReference (hcomplete : compiler.loader.Complete) (trace : Trace)
    (reference : Text) : SessionM.Answers (compiler.compileReference trace reference) := by
  intro session
  refine compileReference_induct hcomplete (P := fun _ _ _ outcome _ =>
    ∃ answer : Except CompileError (Dependency CompiledFile), outcome = answer.mapError .failed)
    ?refused ?settled ?unloaded ?abandoned ?published rfl
  case refused => exact fun _ _ _ error _ => ⟨.error error, rfl⟩
  case settled => exact fun _ _ _ dependency _ => ⟨.ok dependency, rfl⟩
  case unloaded =>
    intro _ _ _ pathname halt _ _ hload
    obtain ⟨error, rfl⟩ := (answers_loadFile hloader pathname).exists_of_error hload
    exact ⟨.error error, rfl⟩
  case abandoned =>
    -- the halt of a file is that of one of its imports
    intro _ _ _ _ _ _ halt _ _ _ hruns _
    obtain ⟨required, -, before, last, hrun⟩ := hruns.exists_of_error rfl
    obtain ⟨answer, hanswer⟩ := hrun.2
    rcases answer with error | dependency
    · exact ⟨.error error, hanswer⟩
    · exact absurd hanswer (by rintro ⟨⟩)
  case published => exact fun _ _ _ _ loaded _ children _ _ _ _ _ =>
    ⟨.ok (.module (compiler.assemble loaded children)), rfl⟩

/-- So does a compile of an entry. -/
theorem answers_compile (hcomplete : compiler.loader.Complete) (entry : Text) :
    SessionM.Answers (compiler.compile entry) := by
  rw [compile]
  refine (answers_compileReference hloader hcomplete [] _).bind ?_
  rintro (file | reference)
  · exact SessionM.answers_pure _
  · exact SessionM.answers_pure _

end Answers

/-! ## Calls inside each other -/

/-- A compile of a reference under a trace, started on a session. -/
structure Call where
  trace : Trace
  reference : Text
  session : Session

/-- The first call reads a file and makes the second for one of its references, when those before it
are answered. -/
inductive Makes (compiler : Compiler) : Call → Call → Prop
  | reads {trace : Trace} {reference pathname required : Text} {session opened between : Session}
      {loaded : LoadedFile} {answered rest : List Text} {children : List (Dependency CompiledFile)}
      (outlook : trace.outlook reference session.compiled = .opens pathname)
      (load : (compiler.loadFile pathname).exec session = (.ok loaded, opened))
      (place : loaded.dependencies = answered ++ required :: rest)
      (run : (answered.mapM (compiler.compileReference
        (trace ++ [⟨pathname, loaded.scope⟩]))).exec opened = (.ok children, between)) :
      Makes compiler ⟨trace, reference, session⟩
        ⟨trace ++ [⟨pathname, loaded.scope⟩], required, between⟩

/-- A call hands down its trace with one more file, which was read and was not in the trace. -/
theorem exists_frame_of_makes {call inner : Call} (h : compiler.Makes call inner) :
    ∃ frame : Frame, inner.trace = call.trace ++ [frame] ∧
      compiler.Readable frame.pathname ∧ frame.pathname ∉ call.trace.pathnames := by
  cases h with
  | reads outlook load =>
      obtain ⟨-, -, hnot⟩ := Trace.outlook_eq_opens_iff.1 outlook
      exact ⟨_, rfl, (of_exec_loadFile load).2, hnot⟩

/-- Calls inside each other are at most as many as the measure of the first trace, and one more. -/
theorem length_le_of_isChain {measure : Trace → Nat} (hfalls : compiler.Falls measure)
    {call : Call} {inner : List Call} (h : List.IsChain compiler.Makes (call :: inner)) :
    inner.length ≤ measure call.trace := by
  induction inner generalizing call with
  | nil => exact Nat.zero_le _
  | cons next inner ih =>
      -- the first step takes one off the measure, the others at most the rest
      obtain ⟨hmakes, hinner⟩ := List.isChain_cons_cons.1 h
      obtain ⟨frame, htrace, hread, hnot⟩ := exists_frame_of_makes hmakes
      have hlt : measure (call.trace ++ [frame]) < measure call.trace :=
        hfalls call.trace frame.pathname frame.scope hread hnot
      have hle : inner.length ≤ measure next.trace := ih hinner
      rw [htrace] at hle
      show inner.length + 1 ≤ measure call.trace
      omega

end Compiler

/-! ## A fixed set of files -/

/-- The pathnames that can be read in a set of files. -/
def Loader.loadable (files failures : Table Text) : List Text :=
  files.keys.filter (!failures.contains ·)

/-- A pathname can be read when reading it gives a text. -/
theorem Loader.mem_loadable_iff {files failures : Table Text} {pathname : Text} :
    pathname ∈ loadable files failures ↔
      ∃ text, readFiles files failures pathname = .text text := by
  simp only [readFiles_eq_text_iff, loadable, List.mem_filter, Table.keys, List.mem_map]
  constructor
  · rintro ⟨⟨⟨key, text⟩, hmem, rfl⟩, hcontains⟩
    have hnone : failures.get? key = none := by simpa [Table.contains] using hcontains
    exact ⟨text, hnone, (files.mem_entries_iff key text).1 hmem⟩
  · rintro ⟨text, hnone, hget⟩
    exact ⟨⟨(pathname, text), (files.mem_entries_iff pathname text).2 hget, rfl⟩,
      by simp [Table.contains, hnone]⟩

/-- No pathname is listed twice: the keys of a table are distinct. -/
theorem Loader.nodup_loadable (files failures : Table Text) : (loadable files failures).Nodup := by
  have hkeys : files.keys.Nodup := by
    refine List.pairwise_map.2 (files.ascending.imp fun hlt heq => ?_)
    rw [heq] at hlt
    exact List.lt_irrefl _ hlt
  exact hkeys.filter _

namespace Compiler

/-- A fixed set of files gives the same text at every request. -/
theorem readable_ofFiles_iff {config : Config} {files failures : Table Text} {pathname : Text} :
    (ofFiles config files failures).Readable pathname ↔
      ∃ text, Loader.readFiles files failures pathname = .text text :=
  ⟨fun ⟨_, text, hread⟩ => ⟨text, hread⟩, fun ⟨text, hread⟩ => ⟨0, text, hread⟩⟩

/-- Reading a file that is not in the trace takes it off those left to read. -/
theorem falls_loadable (config : Config) (files failures : Table Text) :
    (ofFiles config files failures).Falls
      fun trace => (trace.outside (Loader.loadable files failures)).length := by
  intro trace pathname scope hread hnot
  have hmem := Loader.mem_loadable_iff.2 (readable_ofFiles_iff.1 hread)
  exact Trace.length_outside_append_lt scope hmem hnot

/-- With a fixed set of files, whatever the trace, the reference and the session: a compile ends
with an answer or an error; every bound above the number of files that can be read and are not in
the trace gives the compile itself; each call that it makes hands down its trace with one more file,
which was read and was not in the trace; and so no more calls stand inside each other than there are
such files, and one. -/
theorem nesting_bounded (config : Config) (files failures : Table Text) (trace : Trace)
    (reference : Text) (session : Session) :
    let compiler := ofFiles config files failures
    let unread := trace.outside (Loader.loadable files failures)
    unread.Nodup ∧
    (∃ answer : Except CompileError (Dependency CompiledFile),
      ((compiler.compileReference trace reference).exec session).1 = answer.mapError .failed) ∧
    (∀ depth, unread.length < depth →
      compiler.compileWithin depth trace reference = compiler.compileReference trace reference) ∧
    (∀ call inner, compiler.Makes call inner →
      ∃ frame text, inner.trace = call.trace ++ [frame] ∧
        frame.pathname ∉ call.trace.pathnames ∧
        Loader.readFiles files failures frame.pathname = .text text) ∧
    ∀ calls : List Call, calls.head? = some ⟨trace, reference, session⟩ →
      calls.IsChain compiler.Makes → calls.length ≤ unread.length + 1 := by
  intro compiler unread
  have hreads := readsAlways_ofFiles config files failures
  have hfalls := falls_loadable config files failures
  refine ⟨(Loader.nodup_loadable files failures).filter _,
    answers_compileReference hreads.answers hreads.complete trace reference session, ?_, ?_, ?_⟩
  · intro depth hdepth
    -- both bounds stand above the files that are left to read
    have hunread : unread.length ≤ files.keys.length :=
      Nat.le_trans (List.length_filter_le _ _) (List.length_filter_le _ _)
    have hbound : unread.length < compiler.loader.pathnames.length + 1 := by
      show unread.length < files.keys.length + 1
      omega
    rw [compileReference, compileWithin_eq_of_measure_lt hfalls hdepth hbound]
  · intro call inner hmakes
    obtain ⟨frame, htrace, hread, hnot⟩ := exists_frame_of_makes hmakes
    obtain ⟨text, htext⟩ := readable_ofFiles_iff.1 hread
    exact ⟨frame, text, htrace, hnot, htext⟩
  · intro calls hhead hchain
    obtain ⟨inner, rfl⟩ := List.head?_eq_some_iff.1 hhead
    have hle : inner.length ≤ unread.length := length_le_of_isChain hfalls hchain
    show inner.length + 1 ≤ unread.length + 1
    omega

end Compiler

end ModuleCompiler
