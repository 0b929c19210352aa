import ModuleCompiler.Proofs.ModuleId.Reference
import ModuleCompiler.Proofs.Scope.Declared
import ModuleCompiler.Proofs.Version.Expansion

/-!
# Declared ids and their files

A module declares itself by its path below the base, without extension. Reading that id as the id of
a file puts the default extension back, unless what is left has an extension of its own, and takes
the directory of a version for the file named after its package. So the id of `jquery.min.js` names
`jquery.min`, and that of `lib/x/1.0.0.js` names `lib/x/1.0.0/x.js`; every other id of a `.js` file
leads back to the file.

Of reading the id as a pathname, nothing but completing is left: the id is made of names, completing
it adds at most one more (`exists_segments_completed`), and names behind a base in normal form stay
(`Path.normalize_append_of_isName`). So the pathname is the base and the completed path
(`toPathname_cons_of_isPlain`), and the question is when completing adds the extension and nothing
else (`completed_eq_append_extension_iff`).
-/

namespace ModuleCompiler

open Path

/-! ## Paths made of names -/

section Names

variable {base path : Text} {names : List Text}

/-- Names behind a directory in normal form make a path in normal form. -/
theorem Path.normalize_append_of_isName (hbase : normalize base = base)
    (hslash : endsInSlash base = true) (hsegments : segments path = names)
    (hnames : ∀ name ∈ names, IsName name) : normalize (base ++ path) = base ++ path := by
  obtain ⟨front, last, rfl⟩ :=
    (List.eq_nil_or_concat' names).resolve_left (hsegments ▸ segments_ne_nil path)
  have hlast : IsName last := hnames last (by simp)
  have hfront : ∀ name ∈ front, IsName name := fun name hmem => hnames name (by simp [hmem])
  have hend : lastSegment base = [] := lastSegment_eq_nil_iff.2 (.inr hslash)
  rcases habsolute : isAbsolute base with _ | _
  · -- a relative base may start with steps up
    rcases exists_isCollapsed_normalize habsolute with hnil | ⟨pieces, hne, hcollapsed, heq | heq⟩
    · rw [hbase] at hnil
      rw [hnil] at hslash
      exact absurd hslash (by decide)
    · rw [hbase] at heq
      rw [heq] at hend
      exact absurd hend (lastSegment_ofSegments_ne_nil hcollapsed hne)
    · rw [hbase] at heq
      have hwhole : base ++ path = ofSegments (pieces ++ (front ++ [last])) := by
        rw [ofSegments_append hne (by simp), ← hsegments, ofSegments_segments, heq]
        simp
      obtain ⟨steps, below, rfl, hbelow, hsteps⟩ := hcollapsed
      have hlonger : IsCollapsed false
          (List.replicate steps ['.', '.'] ++ below ++ (front ++ [last])) := by
        refine ⟨steps, below ++ (front ++ [last]), by simp, fun name hmem => ?_, hsteps⟩
        rcases List.mem_append.1 hmem with hmem | hmem
        · exact hbelow name hmem
        · exact hnames name hmem
      rw [hwhole]
      exact (normalize_of_isCollapsed hlonger (by simp)).1
  · obtain ⟨above, final, hrooted⟩ := exists_rooted_of_normalize_eq habsolute hbase
    obtain rfl : final = [] := hrooted.lastSegment_eq.symm.trans hend
    exact normalize_of_rooted (hrooted.append hfront (fun _ => hlast) hsegments)

/-- A path made of names has its last one as its last segment. -/
theorem Path.lastSegment_ne_nil_of_isName (hsegments : segments path = names)
    (hnames : ∀ name ∈ names, IsName name) : lastSegment path ≠ [] := by
  obtain ⟨front, hconcat⟩ := segments_eq_concat path
  exact (hnames _ (by rw [← hsegments, hconcat]; simp)).nonempty

/-- The directory of a version that is made of names has no slash at its end. -/
theorem IsVersionDirectory.eq_of_isName {package version : Text}
    (h : IsVersionDirectory path package version) (hsegments : segments path = names)
    (hnames : ∀ name ∈ names, IsName name) : path = package ++ '/' :: version := by
  refine h.eq.resolve_right fun heq => lastSegment_ne_nil_of_isName hsegments hnames ?_
  rw [heq]
  exact lastSegment_append_slash _ []

namespace ModuleId

/-- Completing a path that is made of names leaves it so. -/
theorem exists_segments_completed (hsegments : segments path = names)
    (hnames : ∀ name ∈ names, IsName name) :
    ∃ completed, segments (withDefaultExtension (expandVersioned path)) = completed ∧
      ∀ name ∈ completed, IsName name := by
  obtain ⟨all, hall, hisName⟩ : ∃ all, segments (expandVersioned path) = all ∧
      ∀ name ∈ all, IsName name := by
    -- a directory is completed by a name that is among its own
    by_cases hdirectory : ∃ package version, IsVersionDirectory path package version
    · obtain ⟨package, version, hdirectory⟩ := hdirectory
      have hpath := hdirectory.eq_of_isName hsegments hnames
      have hpackage : lastSegment package ∈ names := by
        obtain ⟨front, hconcat⟩ := segments_eq_concat package
        rw [← hsegments, hpath, segments_append_slash', hconcat]
        simp
      refine ⟨names ++ [lastSegment package], ?_,
        List.forall_mem_append.2 ⟨hnames, List.forall_mem_singleton.2 (hnames _ hpackage)⟩⟩
      rw [expandVersioned_of_isVersionDirectory hdirectory, ← hpath, segments_append_slash',
        hsegments, segments_of_not_mem (slash_not_mem_lastSegment package)]
    · exact ⟨names, by rw [expandVersioned_of_not_isVersionDirectory hdirectory, hsegments], hnames⟩
  obtain ⟨front, last, rfl⟩ := (List.eq_nil_or_concat' all).resolve_left (hall ▸ segments_ne_nil _)
  have hlast : lastSegment (expandVersioned path) ≠ [] := lastSegment_ne_nil_of_isName hall hisName
  obtain ⟨final, hfinal, hname⟩ :=
    exists_segments_withDefaultExtension hall fun _ => hisName last (by simp)
  obtain ⟨hfront, -⟩ := List.forall_mem_append.1 hisName
  refine ⟨front ++ [final], hfinal,
    List.forall_mem_append.2 ⟨hfront, List.forall_mem_singleton.2 (hname fun hnil => ?_)⟩⟩
  refine lastSegment_withDefaultExtension hlast ?_
  rw [lastSegment_of_segments hfinal, hnil]

/-- The pathname of an id that is made of plain segments is the base and the completed path. -/
theorem toPathname_cons_of_isPlain (hbase : Path.normalize base = base)
    (hslash : endsInSlash base = true) (hsegments : segments path = names)
    (hnames : ∀ name ∈ names, IsPlain name) :
    toPathname base (marker :: path) = base ++ withDefaultExtension (expandVersioned path) := by
  have hquery : '?' ∉ path := not_mem_of_not_mem_segments (by decide) fun name hmem =>
    (hnames name (hsegments ▸ hmem)).query_not_mem
  have hmarker : marker ∉ path := not_mem_of_not_mem_segments (by decide) fun name hmem =>
    (hnames name (hsegments ▸ hmem)).marker_not_mem
  obtain ⟨completed, hcompleted, hisName⟩ :=
    exists_segments_completed hsegments fun name hmem => (hnames name hmem).toIsName
  have hnormal : Path.normalize (withDefaultExtension (expandVersioned path)) =
      withDefaultExtension (expandVersioned path) := by
    obtain ⟨front, last, rfl⟩ :=
      (List.eq_nil_or_concat' completed).resolve_left (hcompleted ▸ segments_ne_nil _)
    exact normalize_of_segments hcompleted (fun name hmem => hisName name (by simp [hmem]))
      fun _ => hisName last (by simp)
  rw [toPathname_cons hquery hmarker, hnormal,
    normalize_append_of_isName hbase hslash hcompleted hisName]

/-- Only the default extension is added to a path made of names exactly when it has no extension and
is not the directory of a version. -/
theorem completed_eq_append_extension_iff (hsegments : segments path = names)
    (hnames : ∀ name ∈ names, IsName name) :
    withDefaultExtension (expandVersioned path) = path ++ (".js" : Text) ↔
      hasExtension path = false ∧ ¬ ∃ package version, IsVersionDirectory path package version := by
  by_cases hdirectory : ∃ package version, IsVersionDirectory path package version
  · -- the name of the package stands behind a slash, where the extension would have its dot
    refine iff_of_false (fun heq => ?_) fun h => h.2 hdirectory
    obtain ⟨package, version, hdirectory⟩ := hdirectory
    rw [expandVersioned_of_isVersionDirectory hdirectory,
      ← hdirectory.eq_of_isName hsegments hnames, withDefaultExtension_append_slash] at heq
    have hdot := (List.cons.inj (List.append_cancel_left heq)).1
    exact absurd hdot (by decide)
  · rw [expandVersioned_of_not_isVersionDirectory hdirectory, and_iff_left hdirectory]
    have hplain : EndsPlain path ↔ hasExtension path = true := by
      rw [EndsPlain, or_iff_right (lastSegment_ne_nil_of_isName hsegments hnames),
        hasExtension_lastSegment]
    rcases hextension : hasExtension path with _ | _
    · have hnot : ¬ EndsPlain path := by
        rw [hplain, hextension]
        exact Bool.false_ne_true
      exact iff_of_true (withDefaultExtension_of_not_endsPlain hnot) rfl
    · rw [withDefaultExtension_of_endsPlain (hplain.2 hextension)]
      refine iff_of_false (fun heq => ?_) Bool.noConfusion
      have hlength := congrArg List.length heq
      simp at hlength

end ModuleId

end Names

/-! ## Declared ids -/

namespace ModuleId

variable {base : Text} {names : List Text}

/-- The id of a file below the base is its path without the extension. -/
theorem ofPathname_append_extension (base path : Text) :
    ofPathname base (base ++ path ++ (".js" : Text)) = marker :: path := by
  have hdrop : Text.dropStart? base (base ++ path ++ (".js" : Text)) =
      some (path ++ (".js" : Text)) :=
    List.isPrefixOf?_eq_some_iff_append_eq.2 (List.append_assoc ..).symm
  have hsplit : splitExtension? (path ++ (".js" : Text)) = some (path, ['j', 's']) :=
    splitExtension?_eq_some_iff.2 ⟨rfl, by decide⟩
  rw [ofPathname, hdrop, Option.getD_some, dropExtension, hsplit]

/-- Take a base in normal form with a slash at its end, and a `.js` file below it on a way of plain
segments. The id that the file declares leads back to it exactly when its path without `.js` is not
empty, has no extension of its own and is not the directory of a version. -/
theorem toPathname_ofPathname_eq_self_iff (hbase : Path.normalize base = base)
    (hslash : endsInSlash base = true) (hnames : ∀ name ∈ names, IsPlain name) :
    let path := ofSegments names
    let pathname := base ++ path ++ (".js" : Text)
    toPathname base (ofPathname base pathname) = pathname ↔
      path ≠ [] ∧ hasExtension path = false ∧
        ¬ ∃ package version, IsVersionDirectory path package version := by
  intro path pathname
  rw [ofPathname_append_extension]
  rcases eq_or_ne names [] with rfl | hne
  · -- nothing is left of a file that is named by its extension alone
    have hroot : toPathname base (marker :: path) = base := by
      have happend : base ++ Path.normalize (withDefaultExtension (expandVersioned path)) = base :=
        List.append_nil base
      rw [toPathname_cons (by decide) (by decide), happend, hbase]
    refine iff_of_false (fun heq => ?_) fun h => h.1 rfl
    have hlength := congrArg List.length (hroot.symm.trans heq)
    simp [pathname] at hlength
  · have hsegments : segments path = names :=
      segments_ofSegments hne fun name hmem => (hnames name hmem).slash_not_mem
    have hisName : ∀ name ∈ names, IsName name := fun name hmem => (hnames name hmem).toIsName
    have hpath : path ≠ [] := by
      intro hnil
      refine lastSegment_ne_nil_of_isName hsegments hisName ?_
      rw [hnil]
      rfl
    rw [toPathname_cons_of_isPlain hbase hslash hsegments hnames,
      ← completed_eq_append_extension_iff hsegments hisName, and_iff_right hpath]
    show base ++ _ = base ++ path ++ _ ↔ _
    rw [List.append_assoc, List.append_right_inj]

/-- A version in the name of a file is no directory of a version, and no extension. -/
theorem toPathname_ofPathname_eq_self_iff_versionedName :
    Path.normalize "/srv/" = "/srv/".toList ∧ endsInSlash "/srv/" = true ∧
      (∀ name ∈ ([['l', 'i', 'b'], "jquery-1.7.2".toList] : List Text), IsPlain name) ∧
      ofPathname "/srv/" "/srv/lib/jquery-1.7.2.js" = "#lib/jquery-1.7.2".toList ∧
      toPathname "/srv/" (ofPathname "/srv/" "/srv/lib/jquery-1.7.2.js") =
        "/srv/lib/jquery-1.7.2.js".toList := by
  have hbase : Path.normalize "/srv/" = "/srv/".toList := by decide +kernel
  have hslash : endsInSlash "/srv/" = true := by decide
  have hnames : ∀ name ∈ ([['l', 'i', 'b'], "jquery-1.7.2".toList] : List Text), IsPlain name := by
    decide
  have hplain : ¬ ∃ package version, IsVersionDirectory "lib/jquery-1.7.2" package version :=
    fun ⟨_, _, h⟩ => absurd h.any_segments (by decide +kernel)
  refine ⟨hbase, hslash, hnames, by decide +kernel, ?_⟩
  exact (toPathname_ofPathname_eq_self_iff hbase hslash hnames).2
    ⟨by decide, by decide +kernel, hplain⟩

/-- The ids of a file with two extensions and of one that is named like a version name others. -/
theorem toPathname_ofPathname_ne_self :
    toPathname "/srv/" (ofPathname "/srv/" "/srv/lib/jquery.min.js") =
        "/srv/lib/jquery.min".toList ∧
      toPathname "/srv/" (ofPathname "/srv/" "/srv/lib/x/1.0.0.js") =
        "/srv/lib/x/1.0.0/x.js".toList := by
  decide +kernel

end ModuleId

end ModuleCompiler
