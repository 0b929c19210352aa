import ModuleCompiler.Proofs.Path.Collapsed

/-!
# Normal forms and what is appended to them

Appending to a path and normalizing afterwards comes to the same as appending to its normal form,
since collapsing goes on from what the segments so far have left. Only a relative path of which
nothing is left is an exception: its normal form is empty, and what follows it behind a slash would
start at the root.

On segments this is `collapse_collapse_append`: what they have left may as well be collapsed again.
Which slashes a normal form keeps is settled by `isAbsolute_normalize` and `endsInSlash_normalize`,
and `normalize_append_slash` puts the two together.
-/

namespace ModuleCompiler.Path

variable {path : Text}

/-- Collapsing goes on from what the segments so far have left. -/
theorem collapse_collapse_append (absolute : Bool) {front : List Text}
    (h : ∀ piece ∈ front, '/' ∉ piece) (back : List Text) :
    collapse absolute (collapse absolute front ++ back) = collapse absolute (front ++ back) := by
  have hleft : collapse absolute (collapse absolute front) = collapse absolute front :=
    collapse_of_isCollapsed (isCollapsed_collapse h)
  have hkept : ∀ pieces : List Text,
      pieces.foldl (collapseStep absolute) [] = (collapse absolute pieces).reverse :=
    fun pieces => (List.reverse_reverse _).symm
  calc collapse absolute (collapse absolute front ++ back)
      = (back.foldl (collapseStep absolute)
          ((collapse absolute front).foldl (collapseStep absolute) [])).reverse := by
        rw [collapse, List.foldl_append]
    _ = (back.foldl (collapseStep absolute) (collapse absolute front).reverse).reverse := by
        rw [hkept (collapse absolute front), hleft]
    _ = collapse absolute (front ++ back) := by
        rw [← hkept, ← List.foldl_append, ← collapse]

/-! ## Slashes of a normal form -/

/-- A normal form starts at the root if its path does. -/
theorem isAbsolute_normalize (path : Text) : isAbsolute (normalize path) = isAbsolute path := by
  rw [normalize_eq_framed, isAbsolute_framed (isCollapsed_collapse_segments _ path)]

/-- It ends in a slash if its path does and anything is left. -/
theorem endsInSlash_normalize (h : endsInSlash path = true) (hne : normalize path ≠ []) :
    endsInSlash (normalize path) = true := by
  rw [normalize_eq_framed] at hne ⊢
  rcases eq_or_ne (collapse (isAbsolute path) (segments path)) [] with hnil | hsome
  · rw [hnil, framed_nil] at hne ⊢
    split
    · rfl
    · rename_i hrelative
      exact absurd (if_neg hrelative) hne
  · rw [endsInSlash_framed (isCollapsed_collapse_segments _ path) hsome, h]

theorem isAbsolute_append_slash (hne : path ≠ []) (more : Text) :
    isAbsolute (path ++ '/' :: more) = isAbsolute path := by
  obtain ⟨c, rest, rfl⟩ := List.exists_cons_of_ne_nil hne
  rfl

theorem endsInSlash_append_slash (path more : Text) :
    endsInSlash (path ++ '/' :: more) = endsInSlash ('/' :: more) := by
  rw [endsInSlash, List.getLast?_append_of_ne_nil _ (List.cons_ne_nil _ _), ← endsInSlash]

/-! ## Appending -/

/-- What is appended to a path may as well be appended to its normal form. -/
theorem normalize_append_slash (h : isAbsolute path = true ∨ normalize path ≠ []) (more : Text) :
    normalize (path ++ '/' :: more) = normalize (normalize path ++ '/' :: more) := by
  have hnormal : normalize path ≠ [] := by
    rcases h with habsolute | hne
    · rw [← isAbsolute_normalize] at habsolute
      obtain ⟨rest, hrest⟩ := exists_of_isAbsolute habsolute
      rw [hrest]
      exact List.cons_ne_nil _ _
    · exact hne
  have hpath : path ≠ [] := by
    rintro rfl
    exact hnormal rfl
  have hsegments : collapse (isAbsolute path) (segments (path ++ '/' :: more)) =
      collapse (isAbsolute path) (segments (normalize path ++ '/' :: more)) := by
    rw [segments_append_slash', segments_append_slash', normalize_eq_framed path,
      collapse_segments_framed (isCollapsed_collapse_segments _ path)]
    exact (collapse_collapse_append _ (fun _ => slash_not_mem_of_mem_segments) _).symm
  rw [normalize_eq_framed, normalize_eq_framed (normalize path ++ '/' :: more),
    isAbsolute_append_slash hpath, isAbsolute_append_slash hnormal, isAbsolute_normalize,
    endsInSlash_append_slash, endsInSlash_append_slash, hsegments]

/-- The normal form of a path is made of names, with steps up before them only if the path is
relative. It starts with a slash if the path does, and ends in one if the path does and anything is
left. Paths of this form are their own normal forms. What follows a path behind a slash is read in
the same way behind its normal form, if the path is absolute or anything of it is left. -/
theorem normalize_normal_form (path : Text) :
    (∃ pieces, IsCollapsed (isAbsolute path) pieces ∧
        normalize path = framed (isAbsolute path) (endsInSlash path) pieces) ∧
      isAbsolute (normalize path) = isAbsolute path ∧
      (endsInSlash path = true → normalize path ≠ [] → endsInSlash (normalize path) = true) ∧
      normalize (normalize path) = normalize path ∧
      (∀ absolute trailing pieces, IsCollapsed absolute pieces →
        normalize (framed absolute trailing pieces) = framed absolute trailing pieces) ∧
      ∀ more, isAbsolute path = true ∨ normalize path ≠ [] →
        normalize (path ++ '/' :: more) = normalize (normalize path ++ '/' :: more) :=
  ⟨⟨_, isCollapsed_collapse_segments _ path, normalize_eq_framed path⟩, isAbsolute_normalize path,
    endsInSlash_normalize, normalize_normalize path,
    fun _ trailing _ h => normalize_framed h trailing, fun more h => normalize_append_slash h more⟩

/-- A relative path with steps up before and behind its names, and a way up appended to it. -/
theorem normalize_normal_form_climbingPath :
    endsInSlash ".././lib//../a/b/" = true ∧ normalize ".././lib//../a/b/" = "../a/b/" ∧
      endsInSlash (normalize ".././lib//../a/b/") = true ∧ IsCollapsed false ["..", "a", "b"] ∧
      framed false true ["..", "a", "b"] = ("../a/b/" : Text) ∧
      normalize "../a/b/" = ("../a/b/" : Text) ∧
      normalize (".././lib//../a/b/" ++ '/' :: "../../../x") =
        normalize ("../a/b/" ++ '/' :: "../../../x") ∧
      normalize ("../a/b/" ++ '/' :: "../../../x") = "../../x" := by
  obtain ⟨-, -, htrailing, -, hframed, hmore⟩ := normalize_normal_form ".././lib//../a/b/"
  have hnormal : normalize ".././lib//../a/b/" = "../a/b/" := by decide
  have hcollapsed : IsCollapsed false ["..", "a", "b"] :=
    ⟨1, ["a", "b"], by decide, by decide, by decide⟩
  refine ⟨by decide, hnormal, htrailing (by decide) (by decide), hcollapsed, by decide, ?_, ?_,
    by decide⟩
  · exact hframed false true ["..", "a", "b"] hcollapsed
  · rw [← hnormal]
    exact hmore "../../../x" (.inr (by decide))

end ModuleCompiler.Path
