import ModuleCompiler.Proofs.Compile.Requests
import ModuleCompiler.Proofs.Lists
import ModuleCompiler.Proofs.Path.Pathname
import ModuleCompiler.Proofs.Version.Pinning
import ModuleCompiler.Proofs.Version.Splitting

/-!
# Ranges and what is loaded

A reference into a versioned package has one version that counts, the first of its pathname. When
that is a range, the reference is loaded in the version of an exact constraint or not at all
(`PinsRange`). Behind a version that counts other segments are plain names, whatever they look like,
and a path that is kept as it is written keeps a range at its end.

The proofs place a range in the pathname that a reference means. By `resolveVersion_eq_some` this
pathname is the reference itself or has a version in the place of the one that counts, and
`range_of_target` goes through the places that are left. `literalFiles` has a range in each of them.
-/

namespace ModuleCompiler

open Path ModuleId

/-! ## Resolution -/

/-- A pinned version is that of an exact constraint. -/
theorem exists_of_nearestPin? {constraints : List Constraint} {version : Version}
    (h : nearestPin? constraints = some version) :
    ∃ pin ∈ constraints, pin.isExact = true ∧ pin.version = version := by
  obtain ⟨pin, hfind, hversion⟩ := Option.map_eq_some_iff.1 h
  exact ⟨pin, List.mem_reverse.1 (List.mem_of_find?_eq_some hfind), List.find?_some hfind, hversion⟩

/-- What is loaded for a pathname: the pathname itself when it is not versioned, and else the file
in the version that it names exactly, or in one that the trace pins. -/
theorem resolveVersion_eq_some {pathname answer : Text} {trace : Trace}
    (h : resolveVersion pathname trace = .ok (some answer)) :
    VersionedPath.parse pathname = .ok none ∧ answer = pathname ∨
      ∃ path version, VersionedPath.parse pathname = .ok (some path) ∧
        answer = path.pinned version ∧
        (path.constraint.isExact = true ∨
          ∃ pin ∈ trace.ambient path.package, pin.isExact = true ∧ pin.version = version) := by
  rcases hparse : VersionedPath.parse pathname with error | _ | path
  · simp [resolveVersion, hparse] at h
  · left
    simp only [resolveVersion, hparse, Except.ok.injEq, Option.some.injEq] at h
    exact ⟨rfl, h.symm⟩
  · right
    obtain ⟨-, hanswer⟩ := (resolveVersion_eq_ok_iff hparse).1 h
    -- an exact request, or a pin of the trace
    split at hanswer
    · rename_i hexact
      exact ⟨path, _, rfl, Option.some.inj hanswer, .inl hexact⟩
    · obtain ⟨version, hpin, rfl⟩ := Option.map_eq_some_iff.1 hanswer.symm
      exact ⟨path, version, rfl, rfl, .inr (exists_of_nearestPin? hpin)⟩

namespace Trace

variable {trace : Trace} {reference pathname last : Text} {names : List Text}

/-- What a reference means is a resolved pathname, normalized. -/
theorem exists_of_target (h : trace.target reference = .ok (some pathname)) :
    reference ≠ ModuleId.absent ∧
      ∃ resolved, resolveVersion reference trace = .ok (some resolved) ∧
        pathname = normalize resolved := by
  unfold target at h
  split at h
  · simp at h
  · rename_i hne
    refine ⟨hne, ?_⟩
    rcases hresolve : resolveVersion reference trace with error | _ | resolved
    · simp [hresolve, Except.map] at h
    · simp [hresolve, Except.map] at h
    · simp only [hresolve, Except.map, Option.map_some, Except.ok.injEq, Option.some.injEq] at h
      exact ⟨resolved, rfl, h.symm⟩

/-- What a reference in normal form means: itself, or the same path with a version in the place of
its first one. -/
theorem target_of_rooted (hrooted : Rooted reference names last)
    (h : trace.target reference = .ok (some pathname)) :
    VersionedPath.parse reference = .ok none ∧ pathname = reference ∨
      ∃ path ahead segment behind version, VersionedPath.parse reference = .ok (some path) ∧
        pathname = path.pinned version ∧
        (path.constraint.isExact = true ∨
          ∃ pin ∈ trace.ambient path.package, pin.isExact = true ∧ pin.version = version) ∧
        names = ahead ++ segment :: behind ∧ (∀ name ∈ ahead, isVersionSegment name = false) ∧
        Rooted pathname (ahead ++ version.toText :: behind) last := by
  obtain ⟨-, resolved, hresolve, rfl⟩ := exists_of_target h
  rcases resolveVersion_eq_some hresolve with ⟨hparse, rfl⟩ | ⟨path, version, hparse, rfl, hpin⟩
  · exact .inl ⟨hparse, normalize_of_rooted hrooted⟩
  · obtain ⟨ahead, segment, behind, hnames, -, hahead, hpinned⟩ :=
      VersionedPath.rooted_pinned hrooted hparse
    have hnormal := normalize_of_rooted (hpinned version)
    exact .inr ⟨path, ahead, segment, behind, version, hparse, hnormal, hpin, hnames, hahead,
      hnormal.symm ▸ hpinned version⟩

/-- A reference in normal form means a pathname in normal form. -/
theorem rooted_target (hrooted : Rooted reference names last)
    (h : trace.target reference = .ok (some pathname)) :
    ∃ names last, Rooted pathname names last := by
  rcases target_of_rooted hrooted h with
    ⟨-, rfl⟩ | ⟨_, ahead, _, behind, version, -, -, -, -, -, hp⟩
  · exact ⟨names, last, hrooted⟩
  · exact ⟨_, _, hp⟩

end Trace

/-! ## References -/

/-- The pathname of an entry is in normal form, if it stands for a module. -/
theorem Compiler.exists_rooted_entryPathname {config : Config} {entry : Text}
    (hvalid : config.Valid) (hne : entryPathname config entry ≠ absent) :
    ∃ names last, Rooted (entryPathname config entry) names last := by
  -- a canonical entry, or a path from the root or from the base
  rcases hcanonical : isCanonical entry with _ | _
  · rw [entryPathname, hcanonical, if_neg Bool.false_ne_true] at hne ⊢
    dsimp only at hne ⊢
    split at hne
    · rename_i habsent
      exact absurd habsent hne
    · rename_i habsent
      rw [if_neg habsent, resolve]
      split
      · rename_i habsolute
        exact exists_rooted_normalize habsolute
      · rw [directory_of_endsInSlash (by simp [endsInSlash, hvalid.base_directory])]
        exact exists_rooted_normalize (isAbsolute_base_append hvalid _)
  · rw [entryPathname, if_pos hcanonical]
    exact exists_rooted_toPathname hvalid hcanonical

/-- What a settled source requires is in normal form, if it stands for a module. -/
theorem Script.exists_rooted_of_mem_requiredIds {config : Config} {scope : Scope}
    {pathname source id : Text} {settled : SettledSource} (hvalid : config.Valid)
    (hsettle : settle scope config.base pathname source = .ok settled)
    (hmem : id ∈ settled.requiredIds) (hne : toPathname config.base id ≠ absent) :
    ∃ names last, Rooted (toPathname config.base id) names last := by
  rcases canonical_of_mem_requiredIds hsettle hmem with rfl | hcanonical
  · exact absurd rfl hne
  · exact exists_rooted_toPathname hvalid hcanonical

namespace Origin

variable {config : Config} {source : Text → Reading} {entries : List Text} {trace : Trace}
  {written reference : Text}

/-- A reference is in normal form, if it stands for a module. -/
theorem exists_rooted (hvalid : config.Valid)
    (h : Origin config source entries trace written reference) (hne : reference ≠ absent) :
    ∃ names last, Rooted reference names last := by
  cases h with
  | entry => exact Compiler.exists_rooted_entryPathname hvalid hne
  | required _ settle mem => exact Script.exists_rooted_of_mem_requiredIds hvalid settle mem hne

/-- A reference ends plainly, unless its text names a path as it is. -/
theorem endsPlain (hvalid : config.Valid)
    (h : Origin config source entries trace written reference)
    (hkeeps : keepsPath written = false) : EndsPlain reference := by
  cases h with
  | entry =>
    have hcanonical : isCanonical written = true := by
      rw [keepsPath, Bool.or_eq_false_iff] at hkeeps
      simpa using hkeeps.1
    rw [Compiler.entryPathname, if_pos hcanonical]
    exact endsPlain_toPathname hvalid hkeeps
  | required => exact endsPlain_toPathname hvalid hkeeps

end Origin

/-! ## Ranges in what is loaded -/

/-- An empty segment is no version. -/
theorem isVersionSegment_nil : isVersionSegment [] = false := by decide

/-- A last segment that is empty or has an extension is no version. -/
theorem isVersionSegment_lastSegment {path : Text} (h : EndsPlain path) :
    isVersionSegment (lastSegment path) = false := by
  rcases h with hnil | hextension
  · rw [hnil]
    exact isVersionSegment_nil
  · exact isVersionSegment_of_hasExtension hextension

/-- A range is no name in front of the version that counts. -/
theorem not_mem_of_isRangedSegment {segment : Text} {ahead : List Text}
    (h : isRangedSegment segment = true) (hahead : ∀ name ∈ ahead, isVersionSegment name = false) :
    segment ∉ [] :: ahead := by
  have hversion := isVersionSegment_of_isRangedSegment h
  intro hmem
  rcases List.mem_cons.1 hmem with rfl | hmem
  · rw [isVersionSegment_nil] at hversion
    exact Bool.noConfusion hversion
  · rw [hahead segment hmem] at hversion
    exact Bool.noConfusion hversion

/-- In a pathname without version and line break a range can only be the last segment. -/
theorem range_of_unversioned {pathname segment last : Text} {names before after : List Text}
    (hrooted : Rooted pathname names last) (hparse : VersionedPath.parse pathname = .ok none)
    (hline : '\n' ∉ pathname) (hsegments : segments pathname = before ++ segment :: after)
    (hranged : isRangedSegment segment = true) : segment = last ∧ after = [] := by
  rw [segments_of_rooted hrooted] at hsegments
  -- the pathname has no version segment at all, or its first one is the last segment
  rcases VersionedPath.parse_eq_none_iff.1 hparse with hbreak | hnone | ⟨front, final, hsplit⟩
  · exact absurd hbreak hline
  · rw [segments_of_rooted hrooted] at hnone
    have hmem : segment ∈ [] :: (names ++ [last]) := by
      rw [← List.cons_append, hsegments]
      simp
    exact absurd hmem (not_mem_of_isRangedSegment hranged hnone)
  · obtain ⟨hfront, -⟩ :=
      List.append_inj' ((segments_of_rooted hrooted).symm.trans hsplit.eq) rfl
    -- the names in front of that segment are no versions, so the range is not among them
    have hnames : ∀ name ∈ names, isVersionSegment name = false := by
      have hfirst := hsplit.first
      rw [← hfront] at hfirst
      exact hfirst
    rcases append_eq_append_cons hsegments with ⟨more, -, hlast⟩ | ⟨more, hahead, -⟩
    · rcases more with _ | ⟨first, more⟩
      · obtain ⟨rfl, hafter⟩ := List.cons.inj hlast
        exact ⟨rfl, hafter.symm⟩
      · simp at hlast
    · exact absurd (by simp [hahead]) (not_mem_of_isRangedSegment hranged hnames)

section Targets

variable {config : Config} {source : Text → Reading} {entries : List Text} {trace : Trace}
  {written reference pathname : Text}

/-- Every range in a pathname without line break that a reference means stands behind an exact
version, or at the end of a path that is kept as it is written. -/
theorem range_of_target {segment : Text} {before after : List Text} (hvalid : config.Valid)
    (horigin : Origin config source entries trace written reference)
    (htarget : trace.target reference = .ok (some pathname)) (hline : '\n' ∉ pathname)
    (hsegments : segments pathname = before ++ segment :: after)
    (hranged : isRangedSegment segment = true) :
    (∃ version ∈ before, isExactSegment version = true) ∨
      (after = [] ∧ keepsPath written = true) := by
  have hne := (Trace.exists_of_target htarget).1
  obtain ⟨names, last, hrooted⟩ := horigin.exists_rooted hvalid hne
  rcases Trace.target_of_rooted hrooted htarget with
    ⟨hparse, rfl⟩ | ⟨path, ahead, found, behind, version, -, -, -, -, hahead, hpathname⟩
  · -- the reference itself: a range could only be its last segment, which the default extension
    -- makes a plain one
    right
    obtain ⟨rfl, hafter⟩ := range_of_unversioned hrooted hparse hline hsegments hranged
    refine ⟨hafter, ?_⟩
    by_contra hkeeps
    have hlast := isVersionSegment_lastSegment (horigin.endsPlain hvalid (by simpa using hkeeps))
    rw [hrooted.lastSegment_eq, isVersionSegment_of_isRangedSegment hranged] at hlast
    exact Bool.noConfusion hlast
  · -- a pinned version: the range is not in front of it, and is not the version itself
    left
    rw [segments_of_rooted hpathname] at hsegments
    have hdivided : before ++ segment :: after =
        ([] :: ahead) ++ version.toText :: (behind ++ [last]) := by
      rw [← hsegments]
      simp
    rcases append_eq_append_cons hdivided.symm with ⟨more, hbefore, hmore⟩ | ⟨more, hnames, -⟩
    · rcases more with _ | ⟨first, more⟩
      · -- the range would be the version that was pinned
        obtain ⟨rfl, -⟩ := List.cons.inj hmore
        rw [isRangedSegment_toText] at hranged
        exact Bool.noConfusion hranged
      · obtain ⟨rfl, -⟩ := List.cons.inj hmore
        exact ⟨_, by simp [hbefore], isExactSegment_toText version⟩
    · exact absurd (by simp [hnames]) (not_mem_of_isRangedSegment hranged hahead)

/-- The pathname is what the reference means with the version of an exact constraint of the trace in
the place of its own, if that is a range. -/
def PinsRange (trace : Trace) (reference pathname : Text) : Prop :=
  ∀ path, VersionedPath.parse reference = .ok (some path) → path.constraint.isExact = false →
    ∃ pin ∈ trace.ambient path.package, pin.isExact = true ∧ pathname = path.pinned pin.version

/-- What a reference means has a range of its own replaced by a pin. -/
theorem pinsRange_of_target (hvalid : config.Valid)
    (horigin : Origin config source entries trace written reference)
    (htarget : trace.target reference = .ok (some pathname)) :
    PinsRange trace reference pathname := by
  intro path hparse hranged
  obtain ⟨names, last, hrooted⟩ :=
    horigin.exists_rooted hvalid (Trace.exists_of_target htarget).1
  rcases Trace.target_of_rooted hrooted htarget with
    ⟨hnone, -⟩ | ⟨found, _, _, _, version, hfound, hpathname, hpin, -, -, -⟩
  · rw [hparse] at hnone
    simp at hnone
  · obtain rfl : path = found := by simpa [hparse] using hfound
    rcases hpin with hexact | ⟨pin, hmem, hexact, rfl⟩
    · rw [hranged] at hexact
      exact Bool.noConfusion hexact
    · exact ⟨pin, hmem, hexact, hpathname⟩

end Targets

namespace Compiler

/-- Whatever steps a compiler with checked settings has performed on a fixed set of files: each
module that it has asked for is what a reference means to a trace. If the version that counts in the
reference is a range, the module is the file in the version of an exact constraint of the trace.
Other ranges stand in its pathname only behind a version, or at the end of a path that is kept as it
is written, unless a line breaks in the pathname. In each compiled file a dependency whose version
is a range is absent, or the file in the version of an exact constraint. -/
theorem ranges_pinned {config checked : Config} (hconfig : config.validate = .ok checked)
    (files failures : Table Text) (steps : List Step) :
    let session := (ofFiles checked files failures).after steps
    let source := Loader.readFiles files failures
    (∀ pathname, ⟨.module, pathname⟩ ∈ session.requests →
      ∃ trace written reference, Origin checked source (steps.flatMap Step.entries) trace written
          reference ∧ Asks checked source (steps.flatMap Step.entries) trace reference ∧
        trace.target reference = .ok (some pathname) ∧ PinsRange trace reference pathname ∧
        ('\n' ∉ pathname → ∀ before segment after,
          segments pathname = before ++ segment :: after → isRangedSegment segment = true →
            (∃ version ∈ before, isExactSegment version = true) ∨
              (after = [] ∧ keepsPath written = true))) ∧
    ∀ pathname file, session.compiled.get? pathname = some file →
      ∃ trace, file.CompiledAlong checked source (steps.flatMap Step.entries) trace ∧
        List.Forall₂ (fun reference child => child.isAbsent = true ∨
          PinsRange (trace ++ [file.frame]) reference child.pathname)
          file.dependencies file.children := by
  intro session source
  have hvalid := Config.valid_of_validate hconfig
  refine ⟨fun pathname hmem => ?_, fun pathname file hget => ?_⟩
  · cases arises_of_mem_requests checked files failures steps _ hmem with
    | @module trace written reference _ origin asked target =>
      exact ⟨trace, written, reference, origin, asked, target,
        pinsRange_of_target hvalid origin target,
        fun hline _ _ _ hsegments hranged =>
          range_of_target hvalid origin target hline hsegments hranged⟩
  · have hinvariant := invariant_after (readsAlways_ofFiles checked files failures).toReads
      (List.Subset.refl (steps.flatMap Step.entries))
    obtain ⟨trace, halong⟩ := hinvariant.compiledAlong hget
    refine ⟨trace, halong, List.forall₂_iff_get.2 ⟨halong.answers.length_eq, ?_⟩⟩
    intro place hplace hchild
    have hanswer := halong.answers.get hplace hchild
    -- a child without a file is one whose version stays open
    rcases hdependency : file.children.get ⟨place, hchild⟩ with required | kept
    · rw [hdependency] at hanswer
      obtain ⟨id, horigin⟩ : ∃ id, Origin checked source (steps.flatMap Step.entries)
          (trace ++ [file.frame]) id (file.dependencies.get ⟨place, hplace⟩) :=
        exists_origin_of_settledFile halong.settled (List.get_mem _ _)
      exact .inr (pinsRange_of_target hvalid horigin hanswer)
    · exact .inl rfl

/-- A file that accepts several versions of a package, of which its scope pins one. -/
def pinningFiles : Table Text := .ofList [
  ("/package.json", "\x7b\"alias\": \x7b\"x\": \"lib/x/2.0.0\"\x7d\x7d"),
  ("/main.js", "require('#lib/x/1.0.0+/x');"),
  ("/lib/x/2.0.0/x.js", "")]

theorem ranges_pinned_pinningFiles :
    Config.standard.validate = .ok .standard ∧
    ⟨.module, "/lib/x/2.0.0/x.js"⟩ ∈
      ((ofFiles .standard pinningFiles .empty).after [.compile "#main"]).requests ∧
    ∃ trace written reference, Origin .standard (Loader.readFiles pinningFiles .empty) ["#main"]
        trace written reference ∧
      Trace.target trace reference = .ok (some "/lib/x/2.0.0/x.js".toList) ∧
      PinsRange trace reference "/lib/x/2.0.0/x.js" := by
  have hconfig : Config.standard.validate = .ok .standard := by decide
  have hmem : ⟨.module, "/lib/x/2.0.0/x.js"⟩ ∈
      ((ofFiles .standard pinningFiles .empty).after [.compile "#main"]).requests := by
    decide +kernel
  obtain ⟨trace, written, reference, horigin, -, htarget, hpins, -⟩ :=
    (ranges_pinned hconfig pinningFiles .empty [.compile "#main"]).1 _ hmem
  exact ⟨hconfig, hmem, trace, written, reference, horigin, htarget, hpins⟩

/-- Files with a range behind a version, a range at the end of a path that is kept as it is written,
and one behind a line break. -/
def literalFiles : Table Text := .ofList [
  ("/package.json", "\x7b\"alias\": \x7b\"x\": \"line\\nbreak/1.0.0+\"\x7d\x7d"),
  ("/main.js", "require('#lib/x/1.0.0/y/2.0.0+/z'); require('#lib/x/1.0.0+#'); require('x/y');"),
  ("/lib/x/1.0.0/y/2.0.0+/z.js", ""),
  ("/lib/x/1.0.0+", ""),
  ("/lib/y/1.0.0+", ""),
  ("/line\nbreak/1.0.0+/y.js", "")]

/-- Each of these ranges is asked for as it is written, and so is the last segment of an entry. -/
theorem exists_range_literalFiles :
    Config.standard.validate = .ok .standard ∧
    ∀ pathname ∈ ["/lib/x/1.0.0/y/2.0.0+/z.js", "/lib/x/1.0.0+", "/lib/y/1.0.0+",
        "/line\nbreak/1.0.0+/y.js"].map String.toList,
      ⟨.module, pathname⟩ ∈ ((ofFiles .standard literalFiles .empty).after
        [.compile "#main", .compile "/lib/y/1.0.0+"]).requests ∧
      ∃ segment ∈ segments pathname, isRangedSegment segment = true := by
  decide +kernel

end Compiler

end ModuleCompiler
