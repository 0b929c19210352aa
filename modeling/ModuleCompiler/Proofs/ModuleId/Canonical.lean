import ModuleCompiler.Proofs.Path.Collapsed
import ModuleCompiler.Proofs.Version.Expansion

/-!
# Canonical forms are canonical, but for some directories

The canonical form of an id is a path in normal form that ends plainly, or one that is kept as it
is. Bringing an id into it completes versioned directories first and normalizes last, so normalizing
may uncover the directory of a version that completing has not seen: `lib/x/1.0.0/./` becomes
`lib/x/1.0.0/`. Such a form is completed the second time. All others stay as they are, the completed
ones among them.

`IsCanonicalPath` and `IsKeptPath` are the two forms behind the mark, and by `canonical_cases` there
is no other, so that what a form becomes can be asked of the two. A kept path stays. Of the others,
`IsCanonicalPath.canonical_eq_self_iff` says which do, and
`IsVersionDirectory.lastSegment_completed` why completing leaves none to complete: a completed path
ends in a file. `canonical_unfinished` is an id whose form does not stay as it is.
-/

namespace ModuleCompiler

open Path Unicode

theorem Text.eq_append_of_dropFinal? {c : Char} {text kept : Text}
    (h : Text.dropFinal? c text = some kept) : text = kept ++ [c] := by
  unfold Text.dropFinal? at h
  split at h
  · rename_i hlast
    rw [← Option.some.inj h]
    exact (List.dropLast_append_getLast? _ hlast).symm
  · simp at h

theorem Text.dropFinal?_append_singleton (c : Char) (text : Text) :
    Text.dropFinal? c (text ++ [c]) = some text := by
  simp [Text.dropFinal?]

/-! ## Directories and last segments -/

section LastSegments

variable {path package version : Text}

/-- A path that ends plainly is the directory of a version only with a slash at its end. -/
theorem IsVersionDirectory.eq_of_endsPlain (h : IsVersionDirectory path package version)
    (hplain : EndsPlain path) : path = package ++ '/' :: version ++ ['/'] := by
  rcases h.eq with heq | heq
  · have hname := isName_of_isVersionSegment h.isVersion
    have hlast : lastSegment path = version := by
      rw [heq, lastSegment_append_slash, lastSegment_of_not_mem hname.slash_not_mem]
    rw [EndsPlain, hlast] at hplain
    have hversion := isVersionSegment_of_hasExtension (hplain.resolve_left hname.nonempty)
    rw [h.isVersion] at hversion
    exact Bool.noConfusion hversion
  · exact heq

theorem IsVersionDirectory.lastSegment_of_endsPlain (h : IsVersionDirectory path package version)
    (hplain : EndsPlain path) : lastSegment path = [] := by
  rw [h.eq_of_endsPlain hplain]
  exact lastSegment_append_slash _ []

/-- A directory that is completed by the name of its package ends in a file. -/
theorem IsVersionDirectory.lastSegment_completed (h : IsVersionDirectory path package version)
    (hname : lastSegment package ≠ []) :
    lastSegment (normalize (ModuleId.withDefaultExtension (expandVersioned path))) ≠ [] := by
  rw [lastSegment_normalize (ModuleId.endsPlain_withDefaultExtension _).isName]
  refine ModuleId.lastSegment_withDefaultExtension ?_
  rw [expandVersioned_of_isVersionDirectory h, lastSegment_append_slash,
    lastSegment_of_not_mem (slash_not_mem_lastSegment package)]
  exact hname

/-- In a normal path a package without a name stands at the root. -/
theorem IsVersionDirectory.package_eq_nil (h : IsVersionDirectory path package version)
    (hnormal : normalize path = path) (hname : lastSegment package = []) : package = [] := by
  obtain ⟨after, hafter, hsplit⟩ := h.splitsAt
  obtain ⟨front, hfront⟩ := segments_eq_concat package
  rw [hname] at hfront
  rcases front with _ | ⟨first, inner⟩
  · rw [← ofSegments_segments package, hfront, List.nil_append, ofSegments_singleton]
  · -- the segment before the version would be an empty one inside the path
    obtain ⟨middle, last, hbehind⟩ :=
      (List.eq_nil_or_concat' (version :: after)).resolve_left (List.cons_ne_nil _ _)
    have hsegments :
        segments (normalize path) = first :: ((inner ++ [[]] ++ middle) ++ [last]) := by
      rw [hnormal, hsplit.eq, hfront, hbehind]
      simp
    exact absurd rfl (ne_nil_of_segments_normalize hsegments [] (by simp))

end LastSegments

/-! ## Characters -/

theorem not_mem_expandVersioned {path : Text} {c : Char} (hslash : c ≠ '/') (h : c ∉ path) :
    c ∉ expandVersioned path := by
  by_cases hdirectory : ∃ package version, IsVersionDirectory path package version
  · obtain ⟨package, version, hdirectory⟩ := hdirectory
    obtain ⟨before, hbefore⟩ := exists_append_lastSegment package
    have hparts : c ∉ package ∧ c ∉ version := by
      have hstart : package ++ '/' :: version <+: path := by
        rcases hdirectory.eq with heq | heq <;> simp [heq]
      have hparts : c ∉ package ++ '/' :: version := fun hmem => h (hstart.subset hmem)
      rw [List.mem_append, List.mem_cons, not_or, not_or] at hparts
      exact ⟨hparts.1, hparts.2.2⟩
    have hlast : c ∉ lastSegment package := by
      intro hmem
      refine hparts.1 ?_
      rw [hbefore]
      exact List.mem_append_right _ hmem
    rw [expandVersioned_of_isVersionDirectory hdirectory]
    simp [hparts, hlast, hslash]
  · rw [expandVersioned_of_not_isVersionDirectory hdirectory]
    exact h

namespace ModuleId

theorem not_mem_withDefaultExtension {path : Text} {c : Char} (hextension : c ∉ (".js" : Text))
    (h : c ∉ path) : c ∉ withDefaultExtension path := by
  unfold withDefaultExtension
  split
  · exact h
  · rw [List.mem_append, not_or]
    exact ⟨h, hextension⟩

theorem query_not_mem_stripQuery (id : Text) : '?' ∉ stripQuery id := by
  intro hmem
  simpa using List.mem_takeWhile_imp hmem

/-! ## The two forms -/

/-- What stands behind the mark in a canonical form: a path in normal form without a query, whose
last segment is empty or has an extension. -/
structure IsCanonicalPath (path : Text) : Prop where
  normal : Path.normalize path = path
  query_not_mem : '?' ∉ path
  endsPlain : EndsPlain path

/-- What stands between the marks in a canonical form that keeps a path as it is. -/
structure IsKeptPath (path : Text) : Prop where
  normal : Path.normalize path = path
  query_not_mem : '?' ∉ path
  unextended : hasExtension path = false

variable {path kept id : Text}

/-- The form of an id that is not kept as it is. -/
theorem isCanonicalPath_completed (h : '?' ∉ path) :
    IsCanonicalPath (Path.normalize (withDefaultExtension (expandVersioned path))) where
  normal := normalize_normalize _
  query_not_mem := not_mem_normalize (by decide)
    (not_mem_withDefaultExtension (by decide) (not_mem_expandVersioned (by decide) h))
  endsPlain := (endsPlain_withDefaultExtension _).normalize

theorem canonical_of_dropFinal?_eq_none (h : Text.dropFinal? marker (stripQuery (body id)) = none) :
    canonical id = marker ::
      Path.normalize (withDefaultExtension (expandVersioned (stripQuery (body id)))) := by
  rw [canonical]
  simp only [h]

/-- The form of an id with the mark that keeps its path. -/
theorem canonical_of_dropFinal?_eq_some
    (h : Text.dropFinal? marker (stripQuery (body id)) = some kept) :
    hasExtension (Path.normalize kept) = true ∧ canonical id = marker :: Path.normalize kept ∧
        IsCanonicalPath (Path.normalize kept) ∨
      canonical id = marker :: Path.normalize kept ++ [marker] ∧
        IsKeptPath (Path.normalize kept) := by
  have hquery : '?' ∉ Path.normalize kept := by
    refine not_mem_normalize (by decide) fun hmem => query_not_mem_stripQuery (body id) ?_
    rw [Text.eq_append_of_dropFinal? h]
    exact List.mem_append_left _ hmem
  rw [canonical]
  simp only [h]
  rcases hextension : hasExtension (Path.normalize kept) with _ | _
  · exact .inr ⟨rfl, normalize_normalize kept, hquery, hextension⟩
  · exact .inl ⟨rfl, rfl, normalize_normalize kept, hquery, .of_hasExtension hextension⟩

/-- Canonical forms are a mark and a path, with another mark behind it where it is kept. -/
theorem canonical_cases (id : Text) :
    (∃ path, IsCanonicalPath path ∧ canonical id = marker :: path) ∨
      ∃ kept, IsKeptPath kept ∧ canonical id = marker :: kept ++ [marker] := by
  rcases hfinal : Text.dropFinal? marker (stripQuery (body id)) with _ | kept
  · exact .inl ⟨_, isCanonicalPath_completed (query_not_mem_stripQuery _),
      canonical_of_dropFinal?_eq_none hfinal⟩
  · rcases canonical_of_dropFinal?_eq_some hfinal with ⟨-, hform, hpath⟩ | ⟨hform, hkept⟩
    · exact .inl ⟨_, hpath, hform⟩
    · exact .inr ⟨_, hkept, hform⟩

/-! ## Forms that stay as they are -/

theorem IsKeptPath.canonical_eq_self (h : IsKeptPath kept) :
    canonical (marker :: kept ++ [marker]) = marker :: kept ++ [marker] := by
  have hbody : body (marker :: kept ++ [marker]) = kept ++ [marker] := rfl
  have hquery : '?' ∉ kept ++ [marker] := by
    rw [List.mem_append, not_or]
    exact ⟨h.query_not_mem, by decide⟩
  rw [canonical, hbody, stripQuery_of_not_mem hquery]
  simp only [Text.dropFinal?_append_singleton, h.normal, h.unextended]
  rfl

/-- A kept path with its mark is no directory. -/
theorem not_isVersionDirectory_append_marker (kept package version : Text) :
    ¬ IsVersionDirectory (kept ++ [marker]) package version := by
  intro h
  have hmarker : marker ∉ version :=
    not_mem_of_isVersionSegment h.isVersion (by decide) (by decide) (by decide) (by decide)
  have hlast : (kept ++ [marker]).getLast? = some marker := List.getLast?_concat
  -- the mark at the end belongs neither to a version nor to a slash
  rcases h.eq with heq | heq
  · rw [heq, ← List.singleton_append, ← List.append_assoc] at hlast
    rcases List.eq_nil_or_concat' version with rfl | ⟨front, c, rfl⟩
    · simp [marker] at hlast
    · rw [← List.append_assoc, List.getLast?_concat] at hlast
      simp_all
  · rw [heq, List.getLast?_concat] at hlast
    exact absurd hlast (by decide)

theorem IsCanonicalPath.canonical_eq (h : IsCanonicalPath path) :
    canonical (marker :: path) =
      marker :: Path.normalize (withDefaultExtension (expandVersioned path)) :=
  canonical_cons h.query_not_mem (h.endsPlain.dropFinal?_eq_none (by decide) (by decide))

/-- A form stays as it is, unless it is the directory of a version of a package with a name. -/
theorem IsCanonicalPath.canonical_eq_self_iff (h : IsCanonicalPath path) :
    canonical (marker :: path) = marker :: path ↔
      ¬ ∃ package version, IsVersionDirectory path package version ∧ lastSegment package ≠ [] := by
  rw [h.canonical_eq]
  constructor
  · rintro heq ⟨package, version, hdirectory, hname⟩
    refine hdirectory.lastSegment_completed hname ?_
    rw [(List.cons.inj heq).2]
    exact hdirectory.lastSegment_of_endsPlain h.endsPlain
  · intro hnone
    have hexpand : expandVersioned path = path := by
      by_cases hdirectory : ∃ package version, IsVersionDirectory path package version
      · obtain ⟨package, version, hdirectory⟩ := hdirectory
        have hname : lastSegment package = [] := by
          by_contra hname
          exact hnone ⟨package, version, hdirectory, hname⟩
        rw [expandVersioned_of_isVersionDirectory hdirectory, hname]
        exact (hdirectory.eq_of_endsPlain h.endsPlain).symm
      · exact expandVersioned_of_not_isVersionDirectory hdirectory
    rw [hexpand, withDefaultExtension_of_endsPlain h.endsPlain, h.normal]

theorem IsCanonicalPath.canonical_eq_self_of_lastSegment (h : IsCanonicalPath path)
    (hlast : lastSegment path ≠ []) : canonical (marker :: path) = marker :: path := by
  rw [h.canonical_eq_self_iff]
  rintro ⟨package, version, hdirectory, -⟩
  exact hlast (hdirectory.lastSegment_of_endsPlain h.endsPlain)

/-- The directory of a version at the root has no name to complete it by. -/
theorem completed_of_isVersionDirectory_nil {version : Text}
    (h : IsVersionDirectory path [] version) :
    Path.normalize (withDefaultExtension (expandVersioned path)) = '/' :: version ++ ['/'] := by
  have hversion := isName_of_isVersionSegment h.isVersion
  have hroot : Rooted ('/' :: version ++ ['/']) [version] [] :=
    ⟨by simpa using hversion, fun hne => absurd rfl hne, by simp [directoryAt]⟩
  have hends : EndsPlain ('/' :: version ++ ['/']) :=
    .inl (lastSegment_append_slash ('/' :: version) [])
  have hexpand : expandVersioned path = '/' :: version ++ ['/'] :=
    expandVersioned_of_isVersionDirectory h
  rw [hexpand, withDefaultExtension_of_endsPlain hends, normalize_of_rooted hroot]

/-- Only a directory is completed to one, and stays as it is. -/
theorem completed_of_lastSegment_eq_nil (hnormal : Path.normalize path = path)
    (hlast : lastSegment (Path.normalize (withDefaultExtension path)) = []) :
    Path.normalize (withDefaultExtension path) = path := by
  have hplain : EndsPlain path := by
    by_contra hplain
    rw [EndsPlain, not_or] at hplain
    rw [lastSegment_normalize (endsPlain_withDefaultExtension path).isName] at hlast
    exact lastSegment_withDefaultExtension hplain.1 hlast
  rw [withDefaultExtension_of_endsPlain hplain, hnormal]

/-- Completing a path in normal form leaves no directory to complete. -/
theorem canonical_eq_self_of_normal (hquery : '?' ∉ path) (hnormal : Path.normalize path = path) :
    canonical (marker :: Path.normalize (withDefaultExtension (expandVersioned path))) =
      marker :: Path.normalize (withDefaultExtension (expandVersioned path)) := by
  have hform := isCanonicalPath_completed hquery
  rw [hform.canonical_eq_self_iff]
  rintro ⟨package, version, hdirectory, hname⟩
  have hlast := hdirectory.lastSegment_of_endsPlain hform.endsPlain
  by_cases hpath : ∃ other found, IsVersionDirectory path other found
  · -- the package has no name to complete the directory by, so it is the root
    obtain ⟨other, found, hpath⟩ := hpath
    have hother : lastSegment other = [] := by
      by_contra hother
      exact hpath.lastSegment_completed hother hlast
    obtain rfl := hpath.package_eq_nil hnormal hother
    rw [completed_of_isVersionDirectory_nil hpath] at hdirectory
    obtain rfl := (hpath.congr (.inr rfl)).package_eq hdirectory
    exact hname rfl
  · rw [expandVersioned_of_not_isVersionDirectory hpath] at hlast hdirectory
    rw [completed_of_lastSegment_eq_nil hnormal hlast] at hdirectory
    exact hpath ⟨package, version, hdirectory⟩

/-- The canonical form of an id is its own canonical form exactly when it is not the directory of a
version of a package with a name. An id whose path is written in normal form has no such directory
for its form, and in any case the second form is its own. -/
theorem canonical_canonical_eq_iff (id : Text) :
    (canonical (canonical id) = canonical id ↔
      ¬ ∃ package version, IsVersionDirectory (body (canonical id)) package version ∧
        lastSegment package ≠ []) ∧
    (Path.normalize (stripQuery (body id)) = stripQuery (body id) →
      canonical (canonical id) = canonical id) ∧
    canonical (canonical (canonical id)) = canonical (canonical id) := by
  -- The first form decides for itself; one written in normal form hides no directory; and of a form
  -- that is completed the next one ends in a file.
  refine ⟨?_, fun hnormal => ?_, ?_⟩
  · rcases canonical_cases id with ⟨path, hpath, hform⟩ | ⟨kept, hkept, hform⟩
    · rw [hform]
      exact hpath.canonical_eq_self_iff
    · rw [hform]
      refine iff_of_true hkept.canonical_eq_self ?_
      rintro ⟨package, version, hdirectory, -⟩
      exact not_isVersionDirectory_append_marker kept package version hdirectory
  · rcases hfinal : Text.dropFinal? marker (stripQuery (body id)) with _ | kept
    · rw [canonical_of_dropFinal?_eq_none hfinal]
      exact canonical_eq_self_of_normal (query_not_mem_stripQuery _) hnormal
    · rcases canonical_of_dropFinal?_eq_some hfinal with ⟨hextension, hform, hpath⟩ | ⟨hform, hkept⟩
      · rw [hform]
        exact hpath.canonical_eq_self_of_lastSegment (lastSegment_ne_nil_of_hasExtension hextension)
      · rw [hform]
        exact hkept.canonical_eq_self
  · rcases canonical_cases id with ⟨path, hpath, hform⟩ | ⟨kept, hkept, hform⟩
    · rw [hform]
      by_cases hdirectory : ∃ package version, IsVersionDirectory path package version ∧
          lastSegment package ≠ []
      · obtain ⟨package, version, hdirectory, hname⟩ := hdirectory
        rw [hpath.canonical_eq]
        exact (isCanonicalPath_completed hpath.query_not_mem).canonical_eq_self_of_lastSegment
          (hdirectory.lastSegment_completed hname)
      · rw [hpath.canonical_eq_self_iff.2 hdirectory, hpath.canonical_eq_self_iff.2 hdirectory]
    · rw [hform, hkept.canonical_eq_self, hkept.canonical_eq_self]

/-- A directory of a version that is written in normal form is completed at once. -/
theorem canonical_canonical_eq_iff_directory :
    Path.normalize (stripQuery (body "#lib/x/1.0.0/")) = stripQuery (body "#lib/x/1.0.0/") ∧
      canonical "#lib/x/1.0.0/" = "#lib/x/1.0.0/x.js".toList ∧
      canonical (canonical "#lib/x/1.0.0/") = canonical "#lib/x/1.0.0/" := by
  have hnormal : Path.normalize (stripQuery (body "#lib/x/1.0.0/")) =
      stripQuery (body "#lib/x/1.0.0/") := by decide +kernel
  exact ⟨hnormal, by decide +kernel, (canonical_canonical_eq_iff "#lib/x/1.0.0/").2.1 hnormal⟩

/-- A step to the same directory behind a version hides it from the first completion. -/
theorem canonical_unfinished :
    canonical "#lib/x/1.0.0/./" = "#lib/x/1.0.0/".toList ∧
      canonical (canonical "#lib/x/1.0.0/./") = "#lib/x/1.0.0/x.js".toList ∧
      canonical (canonical "#lib/x/1.0.0/./") ≠ canonical "#lib/x/1.0.0/./" := by
  decide +kernel

end ModuleId

end ModuleCompiler
