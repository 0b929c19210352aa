import ModuleCompiler.Proofs.Compile.Loading
import ModuleCompiler.Proofs.Path.Ancestors

/-!
# The nearest descriptor

The scope of a directory is declared by the first descriptor on the way from the directory to the
root. A look-up asks for the descriptors on this way until one is not missing, and remembers the
scope under the directory that it started from; an error is not remembered. So a look-up that
succeeds once never asks again, and what was looked up before makes no difference to an answer.

`nearestDeclared` says what is to be found and `probed` which descriptors are asked for, both as
functions of the files alone. A look-up is first run in a directory that is not remembered
(`effects_scopeOf_of_absent`); then `get?_afterLookUps` says, by induction over the earlier
look-ups, which directories are remembered.
-/

namespace ModuleCompiler

/-- What the descriptor at a pathname declares, or why it cannot be read; nothing when it is
missing. -/
def Reading.declared (config : Config) (pathname : Text) : Reading → Except CompileError Scope
  | .text body => Scope.ofDescriptor config.base pathname body
  | .failed cause => .error (.unreadable pathname cause)
  | .missing => .ok .empty
  | .pending => .ok .empty

section Walk

variable (config : Config) (source : Text → Reading)

/-- The first of some directories whose descriptor is not missing. -/
def nearestDirectory? (dirs : List Text) : Option Text :=
  dirs.find? fun dir => source (dir ++ config.descriptorName) ≠ .missing

/-- What the descriptor in this directory declares. Without one, nothing is declared. -/
def nearestDeclared (dirs : List Text) : Except CompileError Scope :=
  match nearestDirectory? config source dirs with
  | none => .ok .empty
  | some dir =>
    (source (dir ++ config.descriptorName)).declared config (dir ++ config.descriptorName)

/-- The directories up to the first whose descriptor is not missing, this one included. -/
def probed (dirs : List Text) : List Text :=
  dirs.takeWhile (fun dir => source (dir ++ config.descriptorName) = .missing) ++
    (nearestDirectory? config source dirs).toList

/-- The request for the descriptor in a directory. -/
def descriptorRequest (dir : Text) : Request :=
  ⟨.descriptor, dir ++ config.descriptorName⟩

variable {config source} {dir : Text} {above : List Text}

/-- Past a directory without a descriptor the walk goes on above. -/
theorem probed_cons_of_missing (h : source (dir ++ config.descriptorName) = .missing) :
    probed config source (dir :: above) = dir :: probed config source above := by
  simp [probed, nearestDirectory?, h]

/-- A directory without a descriptor declares what the directories above it do. -/
theorem nearestDeclared_cons_of_missing (h : source (dir ++ config.descriptorName) = .missing) :
    nearestDeclared config source (dir :: above) = nearestDeclared config source above := by
  simp [nearestDeclared, nearestDirectory?, h]

/-- The walk ends at the first descriptor, be it readable or not. -/
theorem probed_cons_of_found (h : source (dir ++ config.descriptorName) ≠ .missing) :
    probed config source (dir :: above) = [dir] := by
  simp [probed, nearestDirectory?, h]

/-- A directory with a descriptor hides those above it. -/
theorem nearestDeclared_cons_of_found (h : source (dir ++ config.descriptorName) ≠ .missing) :
    nearestDeclared config source (dir :: above) =
      (source (dir ++ config.descriptorName)).declared config (dir ++ config.descriptorName) := by
  simp [nearestDeclared, nearestDirectory?, h]

/-- What is asked for is the start of the way. -/
theorem isPrefix_probed (config : Config) (source : Text → Reading) (dirs : List Text) :
    probed config source dirs <+: dirs := by
  induction dirs with
  | nil => exact List.prefix_rfl
  | cons dir above ih =>
    by_cases h : source (dir ++ config.descriptorName) = .missing
    · rw [probed_cons_of_missing h]
      exact List.prefix_cons_inj dir |>.2 ih
    · rw [probed_cons_of_found h]
      exact ⟨above, rfl⟩

end Walk

namespace Compiler

variable {compiler : Compiler} {source : Text → Reading}

/-! ## One look-up -/

section Directory

variable {session : Session} {dir : Text}

/-- The walk answers what the nearest descriptor declares, and asks for the descriptors up to it. -/
theorem exec_nearestScope (hreads : compiler.ReadsAlways source) (dirs : List Text)
    (session : Session) :
    (compiler.nearestScope dirs).exec session =
      ((nearestDeclared compiler.config source dirs).mapError .failed,
        { session with
          requests := session.requests ++
            (probed compiler.config source dirs).map (descriptorRequest compiler.config) }) := by
  induction dirs generalizing session with
  | nil =>
    have hnone : probed compiler.config source [] = [] := rfl
    rw [hnone, List.map_nil, List.append_nil]
    rfl
  | cons dir above ih =>
    have hread := hreads.read session.requests.length (dir ++ compiler.config.descriptorName)
      (hreads.answers _ _)
    have hrequest := SessionM.exec_request compiler.loader .descriptor
      (dir ++ compiler.config.descriptorName) session
    rw [nearestScope]
    -- only a missing descriptor sends the walk on; the other readings end it at this directory
    cases hsource : source (dir ++ compiler.config.descriptorName) with
    | text text =>
      rw [hread, hsource] at hrequest
      rw [SessionM.exec_bind_ok hrequest, SessionM.exec_ofExcept,
        nearestDeclared_cons_of_found (by simp [hsource]), probed_cons_of_found (by simp [hsource]),
        hsource]
      rfl
    | missing =>
      rw [hread, hsource] at hrequest
      rw [SessionM.exec_bind_ok hrequest, nearestDeclared_cons_of_missing hsource,
        probed_cons_of_missing hsource]
      simp only
      rw [ih, List.append_assoc]
      rfl
    | failed cause =>
      rw [hread, hsource] at hrequest
      rw [SessionM.exec_bind_error hrequest, nearestDeclared_cons_of_found (by simp [hsource]),
        probed_cons_of_found (by simp [hsource]), hsource]
      rfl
    | pending =>
      -- a loader that always answers leaves no request pending
      rw [hsource] at hread
      exact absurd hread (hreads.answers _ _)

/-- A remembered scope is answered without any request. -/
theorem exec_scopeOf_of_cached {scope : Scope} (h : session.scopes.get? dir = some scope) :
    (compiler.scopeOf dir).exec session = (.ok scope, session) := by
  rw [scopeOf, SessionM.exec_bind_ok (SessionM.exec_get session), h]
  rfl

/-- A look-up in a directory that is not remembered walks up from there, and remembers what it
finds. -/
theorem exec_scopeOf_of_absent (hreads : compiler.ReadsAlways source)
    (h : session.scopes.get? dir = none) :
    let answer := nearestDeclared compiler.config source (Path.ancestors dir)
    (compiler.scopeOf dir).exec session =
      (answer.mapError .failed,
        { session with
          requests := session.requests ++ (probed compiler.config source (Path.ancestors dir)).map
            (descriptorRequest compiler.config)
          scopes := match answer with
            | .ok scope => session.scopes.insertNew dir scope
            | .error _ => session.scopes }) := by
  intro answer
  have hwalk := exec_nearestScope hreads (Path.ancestors dir) session
  rw [scopeOf, SessionM.exec_bind_ok (SessionM.exec_get session), h]
  simp only
  rcases hanswer : nearestDeclared compiler.config source (Path.ancestors dir) with error | scope
  · rw [hanswer] at hwalk
    rw [SessionM.exec_bind_error hwalk]
    simp only [answer, hanswer]
    rfl
  · rw [hanswer] at hwalk
    rw [SessionM.exec_bind_ok hwalk]
    simp only [answer, hanswer]
    rfl

/-- The answer of a look-up in a directory that is not remembered, what it asks for and what it
changes: a scope is remembered under this directory and under no other, an error nowhere. -/
theorem effects_scopeOf_of_absent (hreads : compiler.ReadsAlways source)
    (h : session.scopes.get? dir = none) :
    let answer := nearestDeclared compiler.config source (Path.ancestors dir)
    let after := ((compiler.scopeOf dir).exec session).2
    ((compiler.scopeOf dir).exec session).1 = answer.mapError .failed ∧
      after.requests = session.requests ++
        (probed compiler.config source (Path.ancestors dir)).map
          (descriptorRequest compiler.config) ∧
      (∀ scope, answer = .ok scope → ∀ other, after.scopes.get? other =
        if other = dir then some scope else session.scopes.get? other) ∧
      ∀ error, answer = .error error → after.scopes = session.scopes := by
  intro answer after
  have hexec := exec_scopeOf_of_absent hreads h
  have hscopes : after.scopes = match answer with
      | .ok scope => session.scopes.insertNew dir scope
      | .error _ => session.scopes := by
    simp only [after]
    rw [hexec]
  refine ⟨by rw [hexec], ?_, ?_, ?_⟩
  · simp only [after]
    rw [hexec]
  · intro scope hanswer other
    rw [hscopes, hanswer]
    simp only
    rw [Table.get?_insertNew, h, Option.none_or]
  · intro error hanswer
    rw [hscopes, hanswer]

end Directory

/-! ## Any look-ups -/

/-- A look-up of the scope of a directory, or of that of a file. -/
inductive LookUp where
  | directory (dir : Text)
  | file (pathname : Text)

/-- The directory that a look-up starts from. -/
def LookUp.dir : LookUp → Text
  | .directory dir => dir
  | .file pathname => Path.directory pathname

/-- The look-up of a scope. -/
def lookUp (compiler : Compiler) : LookUp → SessionM Scope
  | .directory dir => compiler.scopeOf dir
  | .file pathname => compiler.scopeFor pathname

/-- The scope of a file is that of its directory. -/
theorem lookUp_eq (compiler : Compiler) (lookUp : LookUp) :
    compiler.lookUp lookUp = compiler.scopeOf lookUp.dir := by
  cases lookUp <;> rfl

/-- The session that some look-ups of a new compiler leave. -/
def afterLookUps (compiler : Compiler) (lookUps : List LookUp) : Session :=
  lookUps.foldl (fun session next => ((compiler.lookUp next).exec session).2) .initial

/-- What look-ups remember are the scopes of the directories they succeeded in. -/
theorem get?_afterLookUps (hreads : compiler.ReadsAlways source) (lookUps : List LookUp)
    (dir : Text) (scope : Scope) :
    (compiler.afterLookUps lookUps).scopes.get? dir = some scope ↔
      (∃ lookUp ∈ lookUps, lookUp.dir = dir) ∧
        nearestDeclared compiler.config source (Path.ancestors dir) = .ok scope := by
  induction lookUps using List.reverseRecOn generalizing dir scope with
  | nil => simp [afterLookUps, Session.initial]
  | append_singleton earlier next ih =>
    have hafter : compiler.afterLookUps (earlier ++ [next]) =
        ((compiler.scopeOf next.dir).exec (compiler.afterLookUps earlier)).2 := by
      rw [afterLookUps, List.foldl_append, ← lookUp_eq]
      rfl
    have hmem : (∃ lookUp ∈ earlier ++ [next], lookUp.dir = dir) ↔
        (∃ lookUp ∈ earlier, lookUp.dir = dir) ∨ next.dir = dir := by
      simp [or_and_right, exists_or]
    -- what the last look-up adds, if its directory was not remembered before
    rw [hafter, hmem]
    rcases hget : (compiler.afterLookUps earlier).scopes.get? next.dir with _ | stored
    · rw [exec_scopeOf_of_absent hreads hget]
      dsimp only
      rcases hanswer : nearestDeclared compiler.config source (Path.ancestors next.dir)
        with error | found
      · -- an error is not remembered, and every look-up there has it
        simp only
        rw [ih, or_and_right, or_iff_left]
        rintro ⟨rfl, hdeclared⟩
        rw [hanswer] at hdeclared
        simp at hdeclared
      · -- the scope found is remembered under this directory only
        simp only
        rw [Table.get?_insertNew]
        by_cases heq : dir = next.dir
        · rw [if_pos heq, heq, hget, hanswer]
          simp
        · rw [if_neg heq, ih, or_iff_left fun h => heq h.symm]
    · -- what is remembered already stays
      rw [exec_scopeOf_of_cached hget, ih]
      obtain ⟨hlooked, -⟩ := (ih _ _).1 hget
      rw [or_iff_left_of_imp]
      rintro rfl
      exact hlooked

/-- The look-up starts from the directory of an absolute pathname in normal form. -/
def LookUp.Normal (lookUp : LookUp) : Prop :=
  ∃ pathname, Path.isAbsolute pathname = true ∧ Path.normalize pathname = pathname ∧
    lookUp.dir = Path.directory pathname

/-- The directories above a normal look-up are those that its names lead through. -/
theorem LookUp.Normal.exists_enclosing {lookUp : LookUp} (h : lookUp.Normal) :
    ∃ names, (∀ name ∈ names, Path.IsName name) ∧ lookUp.dir = Path.directoryAt names ∧
      Path.ancestors lookUp.dir = Path.enclosing names := by
  obtain ⟨pathname, habsolute, hnormal, hdir⟩ := h
  obtain ⟨names, last, hrooted⟩ := Path.exists_rooted_of_normalize_eq habsolute hnormal
  have heq : lookUp.dir = Path.directoryAt names := by
    rw [hdir, Path.directory_of_rooted hrooted]
  exact ⟨names, hrooted.isName, heq, by rw [heq, Path.ancestors_directoryAt hrooted.isName]⟩

/-- For a fixed set of files, after any look-ups: a look-up from the directory that some names lead
to answers what the nearest descriptor declares, on the way that drops one name after the other. If
the directory is not remembered, the descriptors on this way are asked for, each once, up to the
first that is not missing; a scope is then remembered under this directory and nothing else changes,
and after an error nothing changes. A directory is remembered when it was looked up before and has a
scope, and then nothing is asked for. -/
theorem lookUp_nearest (config : Config) (files failures : Table Text) (lookUps : List LookUp)
    (next : LookUp) (hnext : next.Normal) :
    let compiler := ofFiles config files failures
    let source := Loader.readFiles files failures
    let session := compiler.afterLookUps lookUps
    let after := ((compiler.lookUp next).exec session).2
    ∃ names, (∀ name ∈ names, Path.IsName name) ∧ next.dir = Path.directoryAt names ∧
      let dirs := Path.enclosing names
      let answer := nearestDeclared config source dirs
      ((compiler.lookUp next).exec session).1 = answer.mapError .failed ∧
      (session.scopes.get? next.dir = none →
        after.requests =
          session.requests ++ (probed config source dirs).map (descriptorRequest config) ∧
        (probed config source dirs).Nodup ∧
        (∀ scope, answer = .ok scope → ∀ dir, after.scopes.get? dir =
          if dir = next.dir then some scope else session.scopes.get? dir) ∧
        ∀ error, answer = .error error → after.scopes = session.scopes) ∧
      (∀ scope, session.scopes.get? next.dir = some scope ↔
        (∃ earlier ∈ lookUps, earlier.dir = next.dir) ∧ answer = .ok scope) ∧
      ((∃ scope, session.scopes.get? next.dir = some scope) → after = session) := by
  intro compiler source session after
  have hreads : compiler.ReadsAlways source := readsAlways_ofFiles config files failures
  obtain ⟨names, hnames, hdir, hancestors⟩ := hnext.exists_enclosing
  have hcached : ∀ scope, session.scopes.get? next.dir = some scope ↔
      (∃ earlier ∈ lookUps, earlier.dir = next.dir) ∧
        nearestDeclared config source (Path.enclosing names) = .ok scope := by
    intro scope
    rw [← hancestors]
    exact get?_afterLookUps hreads lookUps next.dir scope
  refine ⟨names, hnames, hdir, ?_⟩
  intro dirs answer
  -- all look-ups are those of directories, so one case analysis serves both kinds
  have hafter : after = ((compiler.scopeOf next.dir).exec session).2 := by
    simp only [after, lookUp_eq]
  rw [lookUp_eq, hafter]
  -- the look-up walks up only from a directory that is not remembered
  rcases hget : session.scopes.get? next.dir with _ | stored
  · obtain ⟨hanswer, hrequests, hscopes, herror⟩ := effects_scopeOf_of_absent hreads hget
    rw [hancestors] at hanswer hrequests hscopes herror
    have hnodup : (probed config source dirs).Nodup :=
      (isPrefix_probed config source dirs).sublist.nodup (Path.nodup_enclosing names)
    exact ⟨hanswer, fun _ => ⟨hrequests, hnodup, hscopes, herror⟩, hget ▸ hcached, by simp⟩
  · have hanswer : answer = .ok stored := ((hcached stored).1 hget).2
    rw [exec_scopeOf_of_cached hget, hanswer]
    exact ⟨rfl, by simp, hanswer ▸ hget ▸ hcached, fun _ => rfl⟩

/-- A file below a descriptor; another descriptor cannot be read. -/
def describedFiles : Table Text := .ofList [
  ("/package.json", "\x7b\"alias\": \x7b\"x\": \"lib/x\"\x7d\x7d"),
  ("/lib/inner/x.js", "")]

/-- The failure beside these files. -/
def undescribedFiles : Table Text := .ofList [("/app/package.json", "permission denied")]

theorem lookUp_nearest_describedFiles :
    (LookUp.file "/lib/inner/x.js").Normal ∧
    ∃ names, (LookUp.file "/lib/inner/x.js").dir = Path.directoryAt names ∧
      (((ofFiles .standard describedFiles undescribedFiles).lookUp (.file "/lib/inner/x.js")).exec
        ((ofFiles .standard describedFiles undescribedFiles).afterLookUps
          [.directory "/app/", .file "/lib/y.js"])).1 =
        (nearestDeclared .standard (Loader.readFiles describedFiles undescribedFiles)
          (Path.enclosing names)).mapError .failed := by
  have hnormal : (LookUp.file "/lib/inner/x.js").Normal :=
    ⟨"/lib/inner/x.js", by decide, by decide +kernel, rfl⟩
  obtain ⟨names, -, hdir, hanswer, -⟩ := lookUp_nearest .standard describedFiles undescribedFiles
    [.directory "/app/", .file "/lib/y.js"] (.file "/lib/inner/x.js") hnormal
  exact ⟨hnormal, names, hdir, hanswer⟩

end Compiler

end ModuleCompiler
