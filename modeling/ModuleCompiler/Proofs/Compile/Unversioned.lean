import ModuleCompiler.Proofs.Compile.Chain

/-!
# Files without versions

A reference means different files to different traces only through the versions that the scopes of a
trace declare. When no package descriptor names a path with a version segment (`Unversioned`), no
scope declares one, and every reference means the same wherever it comes up. The condition goes from
descriptors to scopes (`versions_of_declaredScope`), and from these to the frames of every trace
that an entry leads to (`Unversioned.versions_of_asks`).
-/

namespace ModuleCompiler

/-- The paths that a descriptor names. A malformed one names none. -/
def aliasPaths (text : Text) : List Text :=
  ((aliasesOfDescriptor? text).map Table.values).getD []

/-- No package descriptor above a file of the source names a path with a version segment. -/
def Unversioned (config : Config) (source : Text → Reading) : Prop :=
  ∀ file body dir text, source file = .text body → dir ∈ Path.ancestors (Path.directory file) →
    source (dir ++ config.descriptorName) = .text text →
      ∀ path ∈ aliasPaths text, declaredVersion? path = none

variable {config : Config} {source : Text → Reading} {entries : List Text} {trace : Trace}
  {scope : Scope}

/-- It is enough that no file of a set, read as a descriptor, names one. -/
theorem unversioned_readFiles {files failures : Table Text}
    (h : ∀ entry ∈ files.entries, ∀ path ∈ aliasPaths entry.2, declaredVersion? path = none) :
    Unversioned config (Loader.readFiles files failures) := by
  intro file body dir text _ _ htext
  obtain ⟨-, hget⟩ := Loader.readFiles_eq_text_iff.1 htext
  exact h _ ((files.mem_entries_iff _ text).2 hget)

/-! ## Scopes without versions -/

/-- Paths without a version declare none. -/
theorem declaredVersions_eq_empty (base : Text) {paths : List Text}
    (h : ∀ path ∈ paths, declaredVersion? path = none) :
    declaredVersions base paths = .ok .empty := by
  rw [declaredVersions]
  induction paths with
  | nil => rfl
  | cons path rest ih =>
      rw [List.foldlM_cons, h path List.mem_cons_self]
      exact ih fun other hmem => h other (List.mem_cons_of_mem _ hmem)

/-- A descriptor that names no version makes a scope without versions. -/
theorem versions_of_ofDescriptor {base pathname text : Text}
    (h : ∀ path ∈ aliasPaths text, declaredVersion? path = none)
    (hscope : Scope.ofDescriptor base pathname text = .ok scope) : scope.versions = .empty := by
  rw [Scope.ofDescriptor] at hscope
  rw [aliasPaths] at h
  rcases haliases : aliasesOfDescriptor? text with _ | aliases
  · rw [haliases] at hscope
    simp at hscope
  · rw [haliases] at h hscope
    have hnone : declaredVersions base aliases.values = .ok .empty :=
      declaredVersions_eq_empty base h
    dsimp only at hscope
    rw [hnone] at hscope
    rw [← Except.ok.inj hscope]

/-- The nearest descriptor declares no versions when none of them does. -/
theorem versions_of_declaredScope {dirs : List Text}
    (h : ∀ dir ∈ dirs, ∀ text, source (dir ++ config.descriptorName) = .text text →
      ∀ path ∈ aliasPaths text, declaredVersion? path = none)
    (hscope : declaredScope config source dirs = .ok scope) : scope.versions = .empty := by
  induction dirs with
  | nil =>
      obtain rfl := Except.ok.inj hscope
      rfl
  | cons dir above ih =>
      rw [declaredScope] at hscope
      -- the walk stops at the first descriptor, and an error of it has no scope
      rcases hcontent : (source (dir ++ config.descriptorName)).content
        (dir ++ config.descriptorName) with error | _ | text
      · rw [hcontent] at hscope
        exact absurd hscope (by rintro ⟨⟩)
      · rw [hcontent] at hscope
        exact ih (fun other hmem => h other (List.mem_cons_of_mem _ hmem)) hscope
      · have htext := (Reading.content_eq_some_iff _).1 hcontent
        rw [hcontent] at hscope
        exact versions_of_ofDescriptor (h dir List.mem_cons_self text htext) hscope

/-! ## Traces without versions -/

/-- Scopes without versions leave every version as it is requested. -/
theorem resolveVersion_eq_of_versions (h : ∀ frame ∈ trace, frame.scope.versions = .empty)
    (reference : Text) : resolveVersion reference trace = resolveVersion reference [] := by
  have hambient : ∀ package, trace.ambient package = [] := by
    intro package
    rw [Trace.ambient, List.filterMap_eq_nil_iff]
    intro frame hmem
    rw [Scope.versionFor, h frame hmem, Table.get?_empty]
  -- without constraints no conflict is reported, so the sites do not matter either
  have hnever : (Interval.intersectAll? []).isNone = false := rfl
  rw [resolveVersion, resolveVersion]
  rcases VersionedPath.parse reference with error | _ | path
  · rfl
  · rfl
  · simp only [hambient, show Trace.ambient [] path.package = [] from rfl, hnever]
    rfl

namespace Unversioned

/-- No file of a trace that comes up has a scope with versions. -/
theorem versions_of_asks (h : Unversioned config source) {reference : Text}
    (hasks : Asks config source entries trace reference) :
    ∀ frame ∈ trace, frame.scope.versions = .empty := by
  induction hasks with
  | entry => simp
  | @dependency trace _ pathname _ loaded _ _ settled _ ih =>
      obtain ⟨body, scope, _, hbody, hscope, -, rfl⟩ := settledFile_eq_ok_iff.1 settled
      intro frame hmem
      rcases List.mem_append.1 hmem with habove | hlast
      · exact ih frame habove
      · obtain rfl := List.mem_singleton.1 hlast
        -- the descriptors above a file are those that its scope may come from
        have hdirs : ∀ dir ∈ Path.ancestors (Path.directory pathname), ∀ text,
            source (dir ++ config.descriptorName) = .text text →
              ∀ path ∈ aliasPaths text, declaredVersion? path = none :=
          fun dir hdir text => h pathname body dir text hbody hdir
        exact versions_of_declaredScope hdirs hscope

/-- Whatever leads to a reference, it means what it means to an entry. -/
theorem target_eq (h : Unversioned config source) {reference : Text}
    (hasks : Asks config source entries trace reference) :
    trace.target reference = Trace.target [] reference := by
  rw [Trace.target, Trace.target, resolveVersion_eq_of_versions (h.versions_of_asks hasks)]

end Unversioned

end ModuleCompiler
