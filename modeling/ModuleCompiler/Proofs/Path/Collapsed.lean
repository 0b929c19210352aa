import ModuleCompiler.Proofs.Path.Pathname

/-!
# What collapsing leaves

Collapsing leaves names, and in a relative path the steps up that had nothing to take back before
them. No step changes such a list any more, so a path that was normalized is its own normal form,
whether it starts at the root or not.

`IsCollapsed` is the form of what is left. Each step of collapsing keeps it
(`isCollapsed_collapseStep`), so collapsing leaves it (`isCollapsed_collapse`), and does nothing to
a list that has it (`collapse_of_isCollapsed`). A path of such segments, `framed` by its slashes,
stays as it is (`normalize_framed`), and every normal form is one (`normalize_eq_framed`);
`normalize_normalize` follows. The lemmas on relative paths say the same for texts that are built
without slashes around them.
-/

namespace ModuleCompiler.Path

/-- Names with steps up before them, which no path from the root has. -/
def IsCollapsed (absolute : Bool) (pieces : List Text) : Prop :=
  ∃ steps names, pieces = List.replicate steps ['.', '.'] ++ names ∧
    (∀ name ∈ names, IsName name) ∧ (absolute = true → steps = 0)

variable {absolute : Bool} {path : Text} {pieces : List Text}

/-! ## Collapsing -/

theorem IsCollapsed.eq_dots_or_isName (h : IsCollapsed absolute pieces) :
    ∀ piece ∈ pieces, piece = ['.', '.'] ∨ IsName piece := by
  obtain ⟨steps, names, rfl, hnames, -⟩ := h
  exact List.forall_mem_append.2 ⟨fun _ hmem => .inl (List.eq_of_mem_replicate hmem),
    fun name hmem => .inr (hnames name hmem)⟩

theorem IsCollapsed.ne_nil (h : IsCollapsed absolute pieces) : ∀ piece ∈ pieces, piece ≠ [] := by
  intro piece hmem
  rcases h.eq_dots_or_isName piece hmem with rfl | hname
  · simp
  · exact hname.nonempty

theorem IsCollapsed.slash_not_mem (h : IsCollapsed absolute pieces) :
    ∀ piece ∈ pieces, '/' ∉ piece := by
  intro piece hmem
  rcases h.eq_dots_or_isName piece hmem with rfl | hname
  · decide
  · exact hname.slash_not_mem

theorem isCollapsed_of_isName (h : ∀ name ∈ pieces, IsName name) : IsCollapsed absolute pieces :=
  ⟨0, pieces, rfl, h, fun _ => rfl⟩

theorem collapseStep_replicate_dots (steps : Nat) :
    collapseStep false (List.replicate steps ['.', '.']) ['.', '.'] =
      List.replicate (steps + 1) ['.', '.'] := by
  rcases steps with _ | steps
  · rfl
  · simp [collapseStep, List.replicate_succ]

/-- A step up takes back a name, and in a relative path it stays where there is none. -/
theorem isCollapsed_collapseStep_dots (h : IsCollapsed absolute pieces) :
    IsCollapsed absolute (collapseStep absolute pieces.reverse ['.', '.']).reverse := by
  obtain ⟨steps, names, rfl, hnames, hsteps⟩ := h
  rcases List.eq_nil_or_concat' names with rfl | ⟨front, last, rfl⟩
  · rw [List.append_nil, List.reverse_replicate]
    rcases absolute with _ | _
    · refine ⟨steps + 1, [], ?_, by simp, by simp⟩
      rw [collapseStep_replicate_dots, List.reverse_replicate, List.append_nil]
    · rw [hsteps rfl]
      exact isCollapsed_of_isName (by simp [collapseStep])
  · have hlast : last ≠ ['.', '.'] := (hnames last (by simp)).ne_dots
    refine ⟨steps, front, ?_, fun name hmem => hnames name (by simp [hmem]), hsteps⟩
    simp [collapseStep, hlast]

/-- A step of collapsing keeps the form of what is left. -/
theorem isCollapsed_collapseStep (h : IsCollapsed absolute pieces) {piece : Text}
    (hpiece : '/' ∉ piece) :
    IsCollapsed absolute (collapseStep absolute pieces.reverse piece).reverse := by
  -- A segment names nothing, or leads up, or is a name.
  by_cases hblank : piece = [] ∨ piece = ['.']
  · unfold collapseStep
    rw [if_pos hblank, List.reverse_reverse]
    exact h
  · by_cases hdots : piece = ['.', '.']
    · rw [hdots]
      exact isCollapsed_collapseStep_dots h
    · rw [not_or] at hblank
      have hname : IsName piece := ⟨hblank.1, hblank.2, hdots, hpiece⟩
      obtain ⟨steps, names, rfl, hnames, hsteps⟩ := h
      rw [collapseStep_of_isName hname, List.reverse_cons, List.reverse_reverse, List.append_assoc]
      exact ⟨steps, names ++ [piece], rfl,
        List.forall_mem_append.2 ⟨hnames, List.forall_mem_singleton.2 hname⟩, hsteps⟩

/-- Collapsing leaves names, and steps up before them only in a relative path. -/
theorem isCollapsed_collapse (h : ∀ piece ∈ pieces, '/' ∉ piece) :
    IsCollapsed absolute (collapse absolute pieces) := by
  induction pieces using List.reverseRecOn with
  | nil => exact isCollapsed_of_isName (by simp [collapse])
  | append_singleton pieces piece ih =>
    rw [collapse_concat]
    exact isCollapsed_collapseStep (ih fun other hmem => h other (by simp [hmem]))
      (h piece (by simp))

theorem isCollapsed_collapse_segments (absolute : Bool) (path : Text) :
    IsCollapsed absolute (collapse absolute (segments path)) :=
  isCollapsed_collapse fun _ => slash_not_mem_of_mem_segments

theorem collapse_replicate_dots (steps : Nat) :
    collapse false (List.replicate steps ['.', '.']) = List.replicate steps ['.', '.'] := by
  induction steps with
  | zero => rfl
  | succ steps ih =>
    rw [List.replicate_succ', collapse_concat, ih, List.reverse_replicate,
      collapseStep_replicate_dots, List.reverse_replicate, List.replicate_succ']

theorem collapse_append_nil_cons (absolute : Bool) (front back : List Text) :
    collapse absolute (front ++ [] :: back) = collapse absolute (front ++ back) := by
  simp [collapse, List.foldl_append]

theorem collapse_append_of_isName {names : List Text} (h : ∀ name ∈ names, IsName name) :
    collapse absolute (pieces ++ names) = collapse absolute pieces ++ names := by
  induction names using List.reverseRecOn with
  | nil => simp
  | append_singleton names name ih =>
    rw [← List.append_assoc, collapse_concat_of_isName (h name (by simp)),
      ih fun other hmem => h other (by simp [hmem]), List.append_assoc]

/-- What is left is not collapsed further. -/
theorem collapse_of_isCollapsed (h : IsCollapsed absolute pieces) :
    collapse absolute pieces = pieces := by
  obtain ⟨steps, names, rfl, hnames, hsteps⟩ := h
  rw [collapse_append_of_isName hnames]
  rcases absolute with _ | _
  · rw [collapse_replicate_dots]
  · rw [hsteps rfl]
    rfl

/-! ## The path of some segments -/

/-- Collapsed segments do not start at the root: none of them is empty. -/
theorem isAbsolute_ofSegments_append (h : IsCollapsed absolute pieces) (hne : pieces ≠ [])
    (rest : Text) : isAbsolute (ofSegments pieces ++ rest) = false := by
  obtain ⟨first, others, rfl⟩ := List.exists_cons_of_ne_nil hne
  have hfirst := h.ne_nil first List.mem_cons_self
  have hslash := h.slash_not_mem first List.mem_cons_self
  obtain ⟨c, inner, rfl⟩ := List.exists_cons_of_ne_nil hfirst
  have hhead : ∃ behind, ofSegments ((c :: inner) :: others) = c :: behind := by
    rcases eq_or_ne others [] with rfl | hothers
    · exact ⟨inner, ofSegments_singleton _⟩
    · exact ⟨_, ofSegments_cons _ hothers⟩
  obtain ⟨behind, hbehind⟩ := hhead
  rw [hbehind]
  rw [List.mem_cons, not_or] at hslash
  simpa [isAbsolute] using Ne.symm hslash.1

theorem lastSegment_ofSegments_ne_nil (h : IsCollapsed absolute pieces) (hne : pieces ≠ []) :
    lastSegment (ofSegments pieces) ≠ [] := by
  obtain ⟨front, last, rfl⟩ := (List.eq_nil_or_concat' pieces).resolve_left hne
  rw [lastSegment_ofSegments_concat front (h.slash_not_mem last (by simp))]
  exact h.ne_nil last (by simp)

/-- Collapsing what follows a framed path goes on from its segments. -/
theorem collapse_segments_framed (h : IsCollapsed absolute pieces) (trailing : Bool)
    (back : List Text) : collapse absolute (segments (framed absolute trailing pieces) ++ back) =
      collapse absolute (pieces ++ back) := by
  have hroot : ∀ rest : Text,
      collapse absolute (segments ((if absolute then ['/'] else []) ++ rest) ++ back) =
        collapse absolute (segments rest ++ back) := by
    intro rest
    split
    · rw [List.singleton_append, segments_slash_cons]
      exact collapse_append_nil_cons absolute [] _
    · rw [List.nil_append]
  rcases eq_or_ne pieces [] with rfl | hne
  · rw [framed_nil, ← List.append_nil (if absolute then ['/'] else []), hroot]
    exact collapse_append_nil_cons absolute [] back
  · have hsegments : segments (ofSegments pieces) = pieces :=
      segments_ofSegments hne h.slash_not_mem
    rw [framed, List.append_assoc, hroot]
    split
    · rw [segments_append_slash', hsegments, List.append_assoc]
      exact collapse_append_nil_cons absolute pieces back
    · rw [List.append_nil, hsegments]

theorem isAbsolute_framed (h : IsCollapsed absolute pieces) (trailing : Bool) :
    isAbsolute (framed absolute trailing pieces) = absolute := by
  cases absolute with
  | true => rw [framed, if_pos rfl, List.append_assoc]; rfl
  | false =>
    rcases eq_or_ne pieces [] with rfl | hne
    · simp [isAbsolute]
    · rw [framed, if_neg Bool.false_ne_true, List.nil_append]
      exact isAbsolute_ofSegments_append h hne _

theorem endsInSlash_framed (h : IsCollapsed absolute pieces) (hne : pieces ≠ [])
    (trailing : Bool) : endsInSlash (framed absolute trailing pieces) = trailing := by
  cases trailing with
  | true =>
    rw [framed, if_pos (And.intro rfl hne), endsInSlash, List.getLast?_concat]
    rfl
  | false =>
    have hends : ¬ endsInSlash (ofSegments pieces) = true := fun hends =>
      lastSegment_ofSegments_ne_nil h hne (lastSegment_eq_nil_iff.2 (.inr hends))
    have hframed : framed absolute false pieces =
        (if absolute then ['/'] else []) ++ ofSegments pieces := by simp [framed]
    rw [hframed, endsInSlash,
      List.getLast?_append_of_ne_nil _ (fun hnil => hne ((ofSegments_eq_nil_iff h.ne_nil).1 hnil))]
    exact Bool.eq_false_iff.2 hends

/-- A path made of collapsed segments stays as it is. -/
theorem normalize_framed (h : IsCollapsed absolute pieces) (trailing : Bool) :
    normalize (framed absolute trailing pieces) = framed absolute trailing pieces := by
  have hpieces : collapse absolute (segments (framed absolute trailing pieces)) = pieces := by
    have hgoes := collapse_segments_framed h trailing []
    rwa [List.append_nil, List.append_nil, collapse_of_isCollapsed h] at hgoes
  rw [normalize_eq_framed, isAbsolute_framed h, hpieces]
  rcases eq_or_ne pieces [] with rfl | hne
  · rw [framed_nil, framed_nil]
  · rw [endsInSlash_framed h hne]

/-! ## Relative paths -/

/-- A relative path of such segments is in normal form, with a slash at its end or without it. -/
theorem normalize_of_isCollapsed (h : IsCollapsed false pieces) (hne : pieces ≠ []) :
    normalize (ofSegments pieces) = ofSegments pieces ∧
      normalize (ofSegments pieces ++ ['/']) = ofSegments pieces ++ ['/'] := by
  have hframed := normalize_framed h
  exact ⟨by simpa [framed] using hframed false, by simpa [framed, hne] using hframed true⟩

/-- Names, and behind them a last one or nothing, make a relative path in normal form. -/
theorem normalize_of_segments {names : List Text} {last : Text}
    (hsegments : segments path = names ++ [last]) (hnames : ∀ name ∈ names, IsName name)
    (hlast : last ≠ [] → IsName last) : normalize path = path := by
  rw [← ofSegments_segments path, hsegments]
  rcases eq_or_ne last [] with rfl | hne
  · rcases eq_or_ne names [] with rfl | hsome
    · rfl
    · rw [ofSegments_concat hsome]
      exact (normalize_of_isCollapsed (isCollapsed_of_isName hnames) hsome).2
  · have hcollapsed : IsCollapsed false (names ++ [last]) := isCollapsed_of_isName
      (List.forall_mem_append.2 ⟨hnames, List.forall_mem_singleton.2 (hlast hne)⟩)
    exact (normalize_of_isCollapsed hcollapsed (by simp)).1

/-- Nothing is left of a relative path, or what is left are its segments. -/
theorem exists_isCollapsed_normalize (h : isAbsolute path = false) :
    normalize path = [] ∨ ∃ pieces, pieces ≠ [] ∧ IsCollapsed false pieces ∧
      (normalize path = ofSegments pieces ∨ normalize path = ofSegments pieces ++ ['/']) := by
  rw [normalize_eq_framed, h]
  rcases eq_or_ne (collapse false (segments path)) [] with hnil | hne
  · left
    simp [hnil]
  · refine .inr ⟨_, hne, isCollapsed_collapse_segments false path, ?_⟩
    cases endsInSlash path <;> simp [framed, hne]

/-! ## Normal forms -/

/-- A normal form is its own normal form. -/
theorem normalize_normalize (path : Text) : normalize (normalize path) = normalize path := by
  rw [normalize_eq_framed path]
  exact normalize_framed (isCollapsed_collapse_segments _ path) _

/-- In a normal form only the first segment and the last one can be empty. -/
theorem ne_nil_of_segments_normalize {first last : Text} {inner : List Text}
    (h : segments (normalize path) = first :: (inner ++ [last])) : ∀ piece ∈ inner, piece ≠ [] := by
  -- Behind a relative path, an empty segment comes only from a slash at its end; in an absolute one
  -- also from the slash it starts with.
  rcases habsolute : isAbsolute path with _ | _
  · rcases exists_isCollapsed_normalize habsolute with hnil | ⟨pieces, hne, hcollapsed, heq | heq⟩
    · rw [hnil] at h
      have hlength := congrArg List.length h
      simp [segments] at hlength
    · rw [heq, segments_ofSegments hne hcollapsed.slash_not_mem] at h
      exact fun piece hmem => hcollapsed.ne_nil piece (by rw [h]; simp [hmem])
    · rw [heq, segments_append_slash', segments_ofSegments hne hcollapsed.slash_not_mem,
        ← List.cons_append] at h
      obtain ⟨hpieces, -⟩ := List.append_inj' h rfl
      exact fun piece hmem => hcollapsed.ne_nil piece (by rw [hpieces]; simp [hmem])
  · obtain ⟨names, final, hrooted⟩ := exists_rooted_normalize habsolute
    rw [segments_of_rooted hrooted, ← List.cons_append] at h
    obtain ⟨hnames, -⟩ := List.append_inj' h rfl
    obtain ⟨-, rfl⟩ := List.cons.inj hnames
    exact fun piece hmem => (hrooted.isName piece hmem).nonempty

/-- Normalizing brings no character into a path but slashes. -/
theorem not_mem_normalize {c : Char} (hc : c ≠ '/') (h : c ∉ path) : c ∉ normalize path := by
  have hbody : c ∉ ofSegments (collapse (isAbsolute path) (segments path)) := by
    rw [mem_ofSegments_iff hc]
    rintro ⟨piece, hmem, hmem'⟩
    rw [← ofSegments_segments path, mem_ofSegments_iff hc] at h
    exact h ⟨piece, (mem_of_mem_collapse hmem).1, hmem'⟩
  rw [normalize]
  simp only [List.mem_append, not_or]
  refine ⟨⟨?_, hbody⟩, ?_⟩ <;> split <;> simp [hc]

end ModuleCompiler.Path
