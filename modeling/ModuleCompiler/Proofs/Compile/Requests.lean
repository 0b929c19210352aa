import ModuleCompiler.Proofs.Cache.Invariant
import ModuleCompiler.Proofs.Script.Settling

/-!
# What a compiler asks for

Every request that a compiler has made is for the module that a reference means, or for a descriptor
in or above the directory of that module. The references are the pathnames of entries and those of
the ids that files require, so what is known of these is known of all requests.

Where a reference comes from is its `Origin`, where a request comes from is `Arises`. Both name the
text that was written, which the settled pathname no longer shows. The log of a session is traced
back through one compile (`traced_compileReference`) and then through any steps.
-/

namespace ModuleCompiler

/-! ## Requests and actions -/

/-- All requests in the log satisfy a property. -/
def Session.Requested (Q : Request → Prop) (session : Session) : Prop :=
  ∀ request ∈ session.requests, Q request

namespace SessionM

variable {α : Type} {Q : Request → Prop}

/-- An action that adds nothing to the log keeps what is said of the requests. -/
theorem keeps_requested_of_eq {action : SessionM α}
    (h : ∀ session, (action.exec session).2.requests = session.requests) :
    Keeps (Session.Requested Q) action := by
  intro session hinit request hmem
  rw [h session] at hmem
  exact hinit request hmem

/-- A computation asks for nothing. -/
theorem keeps_requested_ofExcept (result : Except CompileError α) :
    Keeps (Session.Requested Q) (ofExcept result) :=
  keeps_requested_of_eq fun session => by rw [exec_ofExcept]

/-- A request is the only one that it adds to the log. -/
theorem keeps_requested_request {loader : Loader} {purpose : Purpose} {pathname : Text}
    (h : Q ⟨purpose, pathname⟩) :
    Keeps (Session.Requested Q) (request loader purpose pathname) := by
  intro session hinit
  have hlonger : Session.Requested Q
      { session with requests := session.requests ++ [⟨purpose, pathname⟩] } := by
    intro other hmem
    rcases List.mem_append.1 hmem with hbefore | hlast
    · exact hinit other hbefore
    · rw [List.mem_singleton.1 hlast]
      exact h
  -- a request without an answer is not logged
  rw [exec_request]
  cases loader.read session.requests.length pathname with
  | text text => exact hlonger
  | missing => exact hlonger
  | failed cause => exact hlonger
  | pending => exact hinit

end SessionM

namespace Compiler

variable {compiler : Compiler} {Q : Request → Prop}

/-- The walk asks for the descriptors of its directories. -/
theorem keeps_requested_nearestScope {dirs : List Text}
    (h : ∀ dir ∈ dirs, Q ⟨.descriptor, dir ++ compiler.config.descriptorName⟩) :
    SessionM.Keeps (Session.Requested Q) (compiler.nearestScope dirs) := by
  induction dirs with
  | nil => exact SessionM.keeps_pure _
  | cons dir above ih =>
    rw [nearestScope]
    refine (SessionM.keeps_requested_request (h dir List.mem_cons_self)).bind ?_
    rintro - (_ | text) - -
    · exact ih fun other hmem => h other (List.mem_cons_of_mem _ hmem)
    · exact SessionM.keeps_requested_ofExcept _

/-- A look-up asks for the descriptors in and above its directory. -/
theorem keeps_requested_scopeOf {dir : Text}
    (h : ∀ above ∈ Path.ancestors dir,
      Q ⟨.descriptor, above ++ compiler.config.descriptorName⟩) :
    SessionM.Keeps (Session.Requested Q) (compiler.scopeOf dir) := by
  rw [scopeOf]
  refine SessionM.Keeps.bind (SessionM.keeps_requested_of_eq fun _ => rfl) ?_
  intro _ session _ _
  rcases session.scopes.get? dir with _ | scope
  · refine (keeps_requested_nearestScope h).bind fun _ scope _ _ => ?_
    exact SessionM.keeps_requested_of_eq fun _ => rfl
  · exact SessionM.keeps_pure _

/-- Loading a file asks for it and for the descriptors above it. -/
theorem keeps_requested_loadFile {pathname : Text} (hmodule : Q ⟨.module, pathname⟩)
    (hdescriptor : ∀ dir ∈ Path.ancestors (Path.directory pathname),
      Q ⟨.descriptor, dir ++ compiler.config.descriptorName⟩) :
    SessionM.Keeps (Session.Requested Q) (compiler.loadFile pathname) := by
  rw [loadFile]
  refine (SessionM.keeps_requested_request hmodule).bind ?_
  rintro - (_ | text) - -
  · exact SessionM.keeps_throw _
  · refine (keeps_requested_scopeOf hdescriptor).bind fun _ scope _ _ => ?_
    refine (SessionM.keeps_requested_ofExcept _).bind fun _ settled _ _ => ?_
    exact SessionM.keeps_pure _

end Compiler

/-! ## Where references and requests come from -/

/-- Where a reference comes from: it is the pathname of an entry under no files, or that of an id
which the last file of the trace requires, once its references are settled. The text is the entry or
the id. -/
inductive Origin (config : Config) (source : Text → Reading) (entries : List Text) :
    Trace → Text → Text → Prop
  | entry {entry : Text} (mem : entry ∈ entries) :
      Origin config source entries [] entry (Compiler.entryPathname config entry)
  | required {above : Trace} {pathname text id : Text} {scope : Scope}
      {settled : Script.SettledSource} (read : source pathname = .text text)
      (settle : Script.settle scope config.base pathname text = .ok settled)
      (mem : id ∈ settled.requiredIds) :
      Origin config source entries (above ++ [⟨pathname, scope⟩]) id
        (ModuleId.toPathname config.base id)

/-- Where a request comes from, when entries are compiled from the files of a source: it is for the
module that a reference means, or for a descriptor in or above the directory of that module. -/
inductive Arises (config : Config) (source : Text → Reading) (entries : List Text) :
    Request → Prop
  | module {trace : Trace} {written reference pathname : Text}
      (origin : Origin config source entries trace written reference)
      (asked : Asks config source entries trace reference)
      (target : trace.target reference = .ok (some pathname)) :
      Arises config source entries ⟨.module, pathname⟩
  | descriptor {trace : Trace} {written reference pathname dir : Text}
      (origin : Origin config source entries trace written reference)
      (asked : Asks config source entries trace reference)
      (target : trace.target reference = .ok (some pathname))
      (mem : dir ∈ Path.ancestors (Path.directory pathname)) :
      Arises config source entries ⟨.descriptor, dir ++ config.descriptorName⟩

variable {config : Config} {source : Text → Reading} {entries : List Text}

/-- The references of a settled file are the pathnames of ids that it requires. -/
theorem exists_origin_of_settledFile {trace : Trace} {pathname required : Text}
    {loaded : Compiler.LoadedFile} (h : settledFile config source pathname = .ok loaded)
    (hmem : required ∈ loaded.dependencies) :
    ∃ id, Origin config source entries (trace ++ [⟨pathname, loaded.scope⟩]) id required := by
  obtain ⟨text, scope, settled, hread, -, hsettle, rfl⟩ := settledFile_eq_ok_iff.1 h
  obtain ⟨id, hid, rfl⟩ := List.mem_map.1 hmem
  exact ⟨id, .required hread hsettle hid⟩

/-- All requests in the log arise, and the scopes of the session are those that are declared. -/
structure Session.Traced (config : Config) (source : Text → Reading) (entries : List Text)
    (session : Session) : Prop where
  scopes : session.ScopesFrom config source
  requested : session.Requested (Arises config source entries)

/-- A new session has asked for nothing. -/
theorem Session.traced_initial (config : Config) (source : Text → Reading) (entries : List Text) :
    Session.initial.Traced config source entries where
  scopes := scopesFrom_initial config source
  requested request h := by simp [initial] at h

namespace Compiler

variable {compiler : Compiler} {trace : Trace} {written reference pathname : Text}
  {session after : Session}

/-! ## One compile -/

/-- Loading what a reference means asks only for what arises from it. -/
theorem traced_loadFile (hreads : compiler.Reads source) {outcome : Except Halt LoadedFile}
    (horigin : Origin compiler.config source entries trace written reference)
    (hasks : Asks compiler.config source entries trace reference)
    (htarget : trace.target reference = .ok (some pathname))
    (hload : (compiler.loadFile pathname).exec session = (outcome, after))
    (h : session.Traced compiler.config source entries) :
    after.Traced compiler.config source entries := by
  have hrequested := keeps_requested_loadFile (Arises.module horigin hasks htarget)
    (fun dir hdir => Arises.descriptor horigin hasks htarget hdir) session h.requested
  have hscopes := (computes_loadFile hreads pathname session h.scopes).1
  rw [hload] at hrequested hscopes
  exact ⟨hscopes, hrequested⟩

/-- The imports of a file trace back to it. -/
theorem traced_importRuns {loaded : LoadedFile}
    {outcome : Except Halt (List (Dependency CompiledFile))} {opened : Session}
    (hasks : Asks compiler.config source entries trace reference)
    (htarget : trace.target reference = .ok (some pathname))
    (hsettled : settledFile compiler.config source pathname = .ok loaded)
    (hruns : compiler.ImportRuns (fun trace reference session _ after =>
        (∃ written, Origin compiler.config source entries trace written reference) →
          Asks compiler.config source entries trace reference →
          session.Traced compiler.config source entries →
            after.Traced compiler.config source entries)
      (trace ++ [⟨pathname, loaded.scope⟩]) loaded.dependencies opened outcome after)
    (h : opened.Traced compiler.config source entries) :
    after.Traced compiler.config source entries := by
  have hsteps := hruns.imp (S := fun _ session _ after =>
      session.Traced compiler.config source entries → after.Traced compiler.config source entries)
    fun required hmem _ _ _ hrun => hrun.2 (exists_origin_of_settledFile hsettled hmem)
      (.dependency hasks htarget hsettled hmem)
  exact hsteps.keeps (fun _ _ _ _ hstep => hstep) h

/-- A compile adds only such requests to the log. -/
theorem traced_compileReference (hreads : compiler.Reads source)
    (horigin : ∃ written, Origin compiler.config source entries trace written reference)
    (hasks : Asks compiler.config source entries trace reference) :
    SessionM.Keeps (Session.Traced compiler.config source entries)
      (compiler.compileReference trace reference) := by
  intro session h
  rcases hexec : (compiler.compileReference trace reference).exec session with ⟨outcome, after⟩
  -- the origin is part of what is shown by induction: the imports have another one
  revert horigin hasks h
  refine compileReference_induct hreads.complete
    (P := fun trace reference session _ after =>
      (∃ written, Origin compiler.config source entries trace written reference) →
        Asks compiler.config source entries trace reference →
        session.Traced compiler.config source entries → after.Traced compiler.config source entries)
    ?refused ?settled ?unloaded ?abandoned ?published hexec
  case refused => exact fun _ _ _ _ _ _ _ h => h
  case settled => exact fun _ _ _ _ _ _ _ h => h
  case unloaded =>
    intro trace reference session pathname halt after houtlook hload ⟨_, horigin⟩ hasks h
    obtain ⟨htarget, -, -⟩ := Trace.outlook_eq_opens_iff.1 houtlook
    exact traced_loadFile hreads horigin hasks htarget hload h
  case abandoned =>
    intro trace reference session pathname loaded opened halt after houtlook hload hruns _
      ⟨_, horigin⟩ hasks h
    obtain ⟨htarget, -, -⟩ := Trace.outlook_eq_opens_iff.1 houtlook
    obtain ⟨-, hsettled⟩ := (computes_loadFile hreads pathname).eq_ok h.scopes hload
    exact traced_importRuns hasks htarget hsettled hruns
      (traced_loadFile hreads horigin hasks htarget hload h)
  case published =>
    intro trace reference session pathname loaded opened children between houtlook hload hruns _
      ⟨_, horigin⟩ hasks h
    obtain ⟨htarget, -, -⟩ := Trace.outlook_eq_opens_iff.1 houtlook
    obtain ⟨-, hsettled⟩ := (computes_loadFile hreads pathname).eq_ok h.scopes hload
    have hbetween := traced_importRuns hasks htarget hsettled hruns
      (traced_loadFile hreads horigin hasks htarget hload h)
    exact ⟨hbetween.scopes, hbetween.requested⟩

/-! ## Any steps -/

/-- Whatever steps a compiler of a fixed set of files has performed, all of its requests arise from
the entries and the files. -/
theorem arises_of_mem_requests (config : Config) (files failures : Table Text) (steps : List Step) :
    ∀ request ∈ ((ofFiles config files failures).after steps).requests,
      Arises config (Loader.readFiles files failures) (steps.flatMap Step.entries) request := by
  have hreads := (readsAlways_ofFiles config files failures).toReads
  have htraced : ((ofFiles config files failures).after steps).Traced config
      (Loader.readFiles files failures) (steps.flatMap Step.entries) := by
    refine after_induct hreads (Session.traced_initial _ _ _) ?_
    intro loader hloader entry hmem
    exact keeps_compile_of_entry (traced_compileReference hloader ⟨_, .entry hmem⟩ (.entry hmem))
  exact htraced.requested

end Compiler

end ModuleCompiler
