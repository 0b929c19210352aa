import ModuleCompiler.Proofs.Path.Pathname
import ModuleCompiler.Proofs.Version.Splitting

/-!
# Completing versioned directories

A path that stops at its first version names a directory. Completing it adds the name of the
package, and any other path stays as it is. `IsVersionDirectory` says which paths are completed, as
texts, so that the two outcomes, `expandVersioned_of_isVersionDirectory` and
`expandVersioned_of_not_isVersionDirectory`, can be used without looking at segments.
-/

namespace ModuleCompiler

open Path Unicode

/-- The path is the directory of a version of a package, with a slash at its end or without it: no
segment of the package is a version, but for its first, and no line breaks in the path. -/
structure IsVersionDirectory (path package version : Text) : Prop where
  isVersion : isVersionSegment version = true
  first : ∀ segment ∈ (segments package).tail, isVersionSegment segment = false
  line_not_mem : '\n' ∉ path
  eq : path = package ++ '/' :: version ∨ path = package ++ '/' :: version ++ ['/']

variable {path package version : Text}

/-- Version segments are made of digits, dots and marks. -/
theorem not_mem_of_isVersionSegment {segment : Text} {c : Char}
    (h : isVersionSegment segment = true) (hc : isDecimalDigit c = false) (hdot : c ≠ '.')
    (hplus : c ≠ '+') (hminus : c ≠ '-') : c ∉ segment := by
  obtain ⟨parts, hparts⟩ := Option.isSome_iff_exists.1 h
  obtain ⟨hmajor, hminor, hpatch, rfl⟩ := VersionSegment.ofText?_eq_some_iff.1 hparts
  have hmark : c ∉ parts.direction.mark := by
    cases parts.direction <;> simp [Direction.mark, hplus, hminus]
  simp [not_mem_of_isDigitRun hmajor hc, not_mem_of_isDigitRun hminor hc,
    not_mem_of_isDigitRun hpatch hc, hdot, hmark]

namespace IsVersionDirectory

/-- The directory is divided at its version. -/
theorem splitsAt (h : IsVersionDirectory path package version) :
    ∃ after, (after = [] ∨ after = [[]]) ∧
      SplitsAt (segments path) (segments package) version after := by
  have hversion : segments version = [version] :=
    segments_of_not_mem (isName_of_isVersionSegment h.isVersion).slash_not_mem
  have hne := segments_ne_nil package
  rcases h.eq with heq | heq
  · refine ⟨[], .inl rfl, ?_, hne, h.isVersion, h.first⟩
    rw [heq, segments_append_slash', hversion]
  · refine ⟨[[]], .inr rfl, ?_, hne, h.isVersion, h.first⟩
    rw [heq, segments_append_slash', segments_append_slash', hversion, List.append_assoc]
    rfl

theorem any_segments (h : IsVersionDirectory path package version) :
    (segments path).any isVersionSegment = true := by
  obtain ⟨after, -, hsplit⟩ := h.splitsAt
  rw [hsplit.eq]
  simp [h.isVersion]

/-- A path is a directory of one version of one package only. -/
theorem package_eq {other found : Text} (h : IsVersionDirectory path package version)
    (h' : IsVersionDirectory path other found) : package = other := by
  obtain ⟨after, -, hsplit⟩ := h.splitsAt
  obtain ⟨after', -, hsplit'⟩ := h'.splitsAt
  have hsome := splitAtVersion?_eq_some_iff.2 hsplit
  rw [splitAtVersion?_eq_some_iff.2 hsplit', Option.some.injEq, Prod.mk.injEq] at hsome
  rw [← ofSegments_segments package, ← hsome.1, ofSegments_segments]

/-- With a slash at its end, or without it, the directory is the same. -/
theorem congr {other : Text} (h : IsVersionDirectory path package version)
    (heq : other = package ++ '/' :: version ∨ other = package ++ '/' :: version ++ ['/']) :
    IsVersionDirectory other package version := by
  refine ⟨h.isVersion, h.first, ?_, heq⟩
  have hline := h.line_not_mem
  rcases h.eq with hpath | hpath <;> rcases heq with rfl | rfl <;> simp_all

end IsVersionDirectory

/-- The directory of a version is completed by the last segment of its package. -/
theorem expandVersioned_of_isVersionDirectory (h : IsVersionDirectory path package version) :
    expandVersioned path = package ++ '/' :: version ++ '/' :: lastSegment package := by
  obtain ⟨after, hafter, hsplit⟩ := h.splitsAt
  rw [expandVersioned, if_neg h.line_not_mem, splitAtVersion?_eq_some_iff.2 hsplit]
  simp only
  rw [if_pos hafter, ofSegments_append_cons (segments_ne_nil package) (by simp),
    ofSegments_segments, ofSegments_singleton]
  rfl

/-- Any other path is left. -/
theorem expandVersioned_of_not_isVersionDirectory
    (h : ¬ ∃ package version, IsVersionDirectory path package version) :
    expandVersioned path = path := by
  unfold expandVersioned
  split
  · rfl
  · rename_i hline
    split
    · rfl
    · rename_i before segment after hsome
      rw [if_neg]
      intro hafter
      have hsplit := splitAtVersion?_eq_some_iff.1 hsome
      have hslash : ∀ piece ∈ before, '/' ∉ piece := fun piece hmem =>
        slash_not_mem_of_mem_segments (show piece ∈ segments path by rw [hsplit.eq]; simp [hmem])
      -- a path that is divided with nothing behind its version is a directory
      refine h ⟨ofSegments before, segment, hsplit.isVersion, ?_, hline, ?_⟩
      · rw [segments_ofSegments hsplit.before_ne_nil hslash]
        exact hsplit.first
      · rw [← ofSegments_segments path, hsplit.eq]
        rcases hafter with rfl | rfl
        · left
          exact ofSegments_concat hsplit.before_ne_nil segment
        · right
          rw [ofSegments_append_cons hsplit.before_ne_nil (by simp), ofSegments_singleton]

end ModuleCompiler
