import ModuleCompiler.Proofs.ModuleId.Canonical
import ModuleCompiler.Proofs.ModuleId.Reference
import ModuleCompiler.Proofs.Scope.Declared

/-!
# Ids with a query

The query of an id is dropped where the id becomes a pathname. Before that the id is settled, and
settling reads the query as a part of the id: the name that the scope explains may reach into it,
normalizing a relative reference walks through its segments, and a version in front of it is no
directory to complete. An id with a query leads to the same file as long as none of these makes a
difference.

`QueryApart` says when that is, with one condition for each of the three. The second is about
normalizing: segments that do not go up are collapsed apart from those before them
(`collapse_append`), so the normal form of a path stays in front of its query
(`exists_normalize_append_query`). The third is about completing: a directory can as well be
completed in the canonical form, unless a mark at the end of the name keeps the path
(`canonical_expandVersioned`). `exists_settleId_query` puts them together, and
`settleId_query_elsewhere` has three ids whose query leads elsewhere.
-/

namespace ModuleCompiler

open Path

/-! ## Normalizing in front of a query -/

namespace Path

variable {absolute : Bool} {path last : Text} {front pieces rest kept below : List Text}

/-- A step that leaves no way up does not look below what it has kept. -/
theorem collapseStep_append {piece : Text} (h : ['.', '.'] ∉ collapseStep false kept piece) :
    collapseStep absolute (kept ++ below) piece = collapseStep false kept piece ++ below := by
  unfold collapseStep at h ⊢
  by_cases hblank : piece = [] ∨ piece = ['.']
  · rw [if_pos hblank, if_pos hblank]
  · by_cases hdots : piece = ['.', '.']
    · rw [if_neg hblank, if_pos hdots] at h
      rw [if_neg hblank, if_neg hblank, if_pos hdots, if_pos hdots]
      rcases kept with _ | ⟨top, before⟩
      · simp [hdots] at h
      · have htop : top ≠ ['.', '.'] := by
          rintro rfl
          simp at h
        simp [htop]
    · rw [if_neg hblank, if_neg hblank, if_neg hdots, if_neg hdots, List.cons_append]

/-- A way up that was kept is never taken back. -/
theorem dots_mem_collapseStep (h : ['.', '.'] ∈ kept) (piece : Text) :
    ['.', '.'] ∈ collapseStep false kept piece := by
  unfold collapseStep
  split
  · exact h
  · split
    · rcases kept with _ | ⟨top, before⟩
      · simp at h
      · by_cases htop : top = ['.', '.']
        · simp [htop]
        · simpa [htop, Ne.symm htop] using h
    · exact List.mem_cons_of_mem _ h

/-- Segments that do not lead out of where they start are collapsed apart from those before them. -/
theorem collapse_append (h : ['.', '.'] ∉ collapse false rest) :
    collapse absolute (pieces ++ rest) = collapse absolute pieces ++ collapse false rest := by
  induction rest using List.reverseRecOn with
  | nil => simp [collapse]
  | append_singleton rest piece ih =>
    rw [collapse_concat, List.mem_reverse] at h
    have hbefore : ['.', '.'] ∉ collapse false rest := fun hmem =>
      h (dots_mem_collapseStep (List.mem_reverse.2 hmem) piece)
    rw [← List.append_assoc, collapse_concat, collapse_concat, ih hbefore, List.reverse_append,
      collapseStep_append h, List.reverse_append, List.reverse_reverse]

/-- The text of some segments continues where their last one does. -/
theorem ofSegments_append_text (front : List Text) (last text : Text) (rest : List Text) :
    ofSegments (front ++ (last ++ text) :: rest) =
      ofSegments (front ++ [last]) ++ ofSegments (text :: rest) := by
  rcases eq_or_ne rest [] with rfl | hrest
  · rw [ofSegments_concat_append, ofSegments_singleton]
  · rw [List.append_cons, ofSegments_append (by simp) hrest, ofSegments_concat_append,
      ofSegments_cons text hrest, List.append_assoc]

theorem ofSegments_cons_cons (c : Char) (piece : Text) (rest : List Text) :
    ofSegments ((c :: piece) :: rest) = c :: ofSegments (piece :: rest) := by
  have h := ofSegments_append_text [] [c] piece rest
  rwa [List.nil_append, List.nil_append, ofSegments_singleton, List.singleton_append,
    List.singleton_append] at h

/-- A segment with a question mark in it is a name. -/
theorem isName_append_query {before after : Text} (hbefore : '/' ∉ before) (hafter : '/' ∉ after) :
    IsName (before ++ '?' :: after) := by
  have hmark : '?' ∈ before ++ '?' :: after := by simp
  refine ⟨by simp, fun heq => ?_, fun heq => ?_, by simp [hbefore, hafter]⟩
  · exact absurd (heq ▸ hmark) (by decide)
  · exact absurd (heq ▸ hmark) (by decide)

/-- The last segment of a path and the first one of its query are one. -/
theorem segments_append_query {query first : Text} {others : List Text}
    (hpath : segments path = front ++ [last]) (hquery : segments query = first :: others) :
    segments (path ++ '?' :: query) = front ++ (last ++ '?' :: first) :: others := by
  have htext : path ++ '?' :: query = ofSegments (front ++ (last ++ '?' :: first) :: others) := by
    rw [ofSegments_append_text, ofSegments_cons_cons, ← hquery, ← hpath, ofSegments_segments,
      ofSegments_segments]
  have hbefore : ∀ piece ∈ front ++ [last], '/' ∉ piece := fun piece hmem =>
    slash_not_mem_of_mem_segments (hpath ▸ hmem)
  have hbehind : ∀ piece ∈ first :: others, '/' ∉ piece := fun piece hmem =>
    slash_not_mem_of_mem_segments (hquery ▸ hmem)
  obtain ⟨hfront, hlast⟩ := List.forall_mem_append.1 hbefore
  obtain ⟨hfirst, hothers⟩ := List.forall_mem_cons.1 hbehind
  have hname := isName_append_query (hlast last (List.mem_singleton_self last)) hfirst
  rw [htext, segments_ofSegments (by simp)]
  exact List.forall_mem_append.2 ⟨hfront, List.forall_mem_cons.2 ⟨hname.slash_not_mem, hothers⟩⟩

/-- The normal form of a path stays in front of a query that does not lead out of its first
segment. -/
theorem exists_normalize_append_query (query : Text)
    (hlast : lastSegment path ≠ [] → IsName (lastSegment path))
    (hinside : ['.', '.'] ∉ collapse false (segments query).tail) :
    ∃ rest, normalize (path ++ '?' :: query) = normalize path ++ '?' :: rest := by
  obtain ⟨front, hpath⟩ := segments_eq_concat path
  obtain ⟨first, others, hquery⟩ := List.exists_cons_of_ne_nil (segments_ne_nil query)
  rw [hquery, List.tail_cons] at hinside
  have hfirst : IsName (lastSegment path ++ '?' :: first) :=
    isName_append_query (slash_not_mem_lastSegment path)
      (slash_not_mem_of_mem_segments (show first ∈ segments query by simp [hquery]))
  have habsolute : isAbsolute (path ++ '?' :: query) = isAbsolute path := by
    rcases path with _ | ⟨c, inner⟩ <;> rfl
  obtain ⟨final, hfinal⟩ : ∃ final, normalize (path ++ '?' :: query) =
      (if isAbsolute path then ['/'] else []) ++
        ofSegments (collapse (isAbsolute path) (segments (path ++ '?' :: query))) ++ final :=
    ⟨_, by rw [normalize, habsolute]⟩
  -- the segments of the query behind its first are collapsed apart, and that one is a name
  rw [hfinal, segments_append_query hpath hquery, List.append_cons, collapse_append hinside,
    collapse_concat_of_isName hfirst, ← List.append_cons, ofSegments_append_text,
    ofSegments_cons_cons, normalize_of_concat hpath hlast]
  exact ⟨ofSegments (first :: collapse false others) ++ final, by simp⟩

/-! ## Last characters -/

theorem getLast?_of_lastSegment {c : Char} (h : (lastSegment path).getLast? = some c) :
    path.getLast? = some c := by
  obtain ⟨before, hpath⟩ := exists_append_lastSegment path
  rw [hpath, List.getLast?_append, h, Option.some_or]

theorem getLast?_lastSegment {c : Char} (hc : c ≠ '/') (h : path.getLast? = some c) :
    (lastSegment path).getLast? = some c := by
  have hne : lastSegment path ≠ [] := by
    intro hnil
    rcases lastSegment_eq_nil_iff.1 hnil with rfl | hends
    · simp at h
    · rw [endsInSlash, h] at hends
      exact hc (by simpa using hends)
  obtain ⟨before, hpath⟩ := exists_append_lastSegment path
  rwa [hpath, List.getLast?_append_of_ne_nil _ hne] at h

/-- The directory of any path ends in a slash. -/
theorem exists_directory_eq (path : Text) : ∃ before, directory path = before ++ ['/'] := by
  obtain ⟨front, hpath⟩ := segments_eq_concat path
  rcases eq_or_ne front [] with rfl | hfront
  · have hslash : '/' ∉ path := by
      rw [← ofSegments_segments path, hpath, List.nil_append, ofSegments_singleton]
      exact slash_not_mem_lastSegment path
    have hnone : path.reverse.dropWhile (· != '/') = [] :=
      List.dropWhile_eq_nil_iff.2 fun c hmem =>
        Text.bne_of_not_mem hslash c (List.mem_reverse.1 hmem)
    refine ⟨['.'], ?_⟩
    rw [directory, hnone]
    rfl
  · refine ⟨ofSegments front, ?_⟩
    rw [← ofSegments_segments path, hpath, ofSegments_concat hfront]
    exact directory_append_slash _ (slash_not_mem_lastSegment path)

end Path

/-! ## Completing in front of a query -/

/-- Completing a path appends to it. -/
theorem exists_expandVersioned_eq_append (path : Text) :
    ∃ rest, expandVersioned path = path ++ rest := by
  by_cases hdirectory : ∃ package version, IsVersionDirectory path package version
  · obtain ⟨package, version, hdirectory⟩ := hdirectory
    rw [expandVersioned_of_isVersionDirectory hdirectory]
    rcases hdirectory.eq with heq | heq
    · exact ⟨'/' :: lastSegment package, by rw [heq]⟩
    · exact ⟨lastSegment package, by rw [heq]; simp⟩
  · exact ⟨[], by rw [expandVersioned_of_not_isVersionDirectory hdirectory, List.append_nil]⟩

/-- A completed path is not completed again. -/
theorem expandVersioned_expandVersioned (path : Text) :
    expandVersioned (expandVersioned path) = expandVersioned path := by
  by_cases hdirectory : ∃ package version, IsVersionDirectory path package version
  · obtain ⟨package, version, hdirectory⟩ := hdirectory
    rcases eq_or_ne (lastSegment package) [] with hname | hname
    · -- the name is empty, so this is the same directory
      have hexpand : expandVersioned path = package ++ '/' :: version ++ ['/'] := by
        rw [expandVersioned_of_isVersionDirectory hdirectory, hname]
      rw [hexpand, expandVersioned_of_isVersionDirectory (hdirectory.congr (.inr rfl)), hname]
    · refine expandVersioned_of_not_isVersionDirectory ?_
      rintro ⟨other, found, hother⟩
      obtain ⟨after, hafter, hsplit⟩ := hother.splitsAt
      have hexpand : SplitsAt (segments (expandVersioned path)) (segments package) version
          [lastSegment package] := by
        refine ⟨?_, segments_ne_nil package, hdirectory.isVersion, hdirectory.first⟩
        rw [expandVersioned_of_isVersionDirectory hdirectory, segments_append_slash',
          segments_append_slash', segments_of_not_mem (slash_not_mem_lastSegment package),
          segments_of_not_mem (isName_of_isVersionSegment hdirectory.isVersion).slash_not_mem,
          List.append_assoc]
        rfl
      have hsome := splitAtVersion?_eq_some_iff.2 hsplit
      rw [splitAtVersion?_eq_some_iff.2 hexpand, Option.some.injEq, Prod.mk.injEq,
        Prod.mk.injEq] at hsome
      rcases hafter with rfl | rfl
      · exact absurd hsome.2.2 (List.cons_ne_nil _ _)
      · exact hname (List.cons.inj hsome.2.2).1
  · rw [expandVersioned_of_not_isVersionDirectory hdirectory,
      expandVersioned_of_not_isVersionDirectory hdirectory]

namespace ModuleId

variable {base id path : Text}

theorem stripQuery_append_query (id query : Text) :
    stripQuery (id ++ '?' :: query) = stripQuery id := by
  rw [stripQuery, stripQuery, List.takeWhile_append]
  split
  · rename_i hlength
    have hid := (List.takeWhile_prefix _).eq_of_length hlength
    simp [hid]
  · rfl

/-- The canonical form of a canonical id does not depend on its query. -/
theorem canonical_append_query (h : isCanonical id = true) (query : Text) :
    canonical (id ++ '?' :: query) = canonical id := by
  obtain ⟨path, rfl⟩ : ∃ path, id = marker :: path := by
    simpa [isCanonical, List.head?_eq_some_iff] using h
  have hbody : stripQuery (body (marker :: path ++ '?' :: query)) =
      stripQuery (body (marker :: path)) := stripQuery_append_query path query
  rw [canonical, canonical, hbody]

theorem isCanonical_append_query (id query : Text) :
    isCanonical (id ++ '?' :: query) = isCanonical id := by
  rcases id with _ | ⟨c, rest⟩ <;> rfl

theorem isRelative_append_query (id query : Text) :
    isRelative (id ++ '?' :: query) = isRelative id := by
  rcases id with _ | ⟨c, rest⟩ <;> rfl

/-- Canonical ids have the pathnames of their canonical forms. -/
theorem toPathname_congr {other : Text} (h : isCanonical id = isCanonical other)
    (hid : isCanonical id = true) (hcanonical : canonical id = canonical other) :
    toPathname base id = toPathname base other := by
  rw [toPathname, toPathname, if_pos hid, if_pos (h ▸ hid), hcanonical]

theorem toPathname_append_query (base : Text) (h : isCanonical id = true) (query : Text) :
    toPathname base (id ++ '?' :: query) = toPathname base id :=
  toPathname_congr (isCanonical_append_query id query)
    ((isCanonical_append_query id query).trans h) (canonical_append_query h query)

/-- It does not matter whether a directory is completed before its id is brought into the canonical
form, unless a mark at the end of the name keeps the path. -/
theorem canonical_expandVersioned
    (hkept : (expandVersioned path).getLast? = some marker → path.getLast? = some marker) :
    canonical (marker :: expandVersioned path) = canonical (marker :: path) := by
  by_cases hdirectory : ∃ package version, IsVersionDirectory path package version
  · obtain ⟨package, version, hdirectory⟩ := hdirectory
    have hlast : path.getLast? ≠ some marker := by
      intro hlast
      obtain ⟨kept, rfl⟩ := List.getLast?_eq_some_iff.1 hlast
      exact not_isVersionDirectory_append_marker kept package version hdirectory
    by_cases hquery : '?' ∈ path
    · -- the completed path has the same beginning up to its query
      obtain ⟨before, after, heq⟩ := List.append_of_mem hquery
      obtain ⟨rest, hrest⟩ := exists_expandVersioned_eq_append path
      have hstart : expandVersioned path = before ++ '?' :: (after ++ rest) := by
        rw [hrest, heq, List.append_assoc, List.cons_append]
      have hsame : ∀ query, canonical (marker :: before ++ '?' :: query) =
          canonical (marker :: before) := canonical_append_query rfl
      rw [hstart, heq]
      exact (hsame _).trans (hsame _).symm
    · have hunkept : Text.dropFinal? marker path = none := by rw [Text.dropFinal?, if_neg hlast]
      have hcompleted : Text.dropFinal? marker (expandVersioned path) = none := by
        rw [Text.dropFinal?, if_neg (mt hkept hlast)]
      rw [canonical_cons hquery hunkept,
        canonical_cons (not_mem_expandVersioned (by decide) hquery) hcompleted,
        expandVersioned_expandVersioned]
  · rw [expandVersioned_of_not_isVersionDirectory hdirectory]

/-- A path that is completed behind its query leads where it leads when it is completed without. -/
theorem toPathname_expandVersioned_query (base query : Text)
    (hkept : (expandVersioned path).getLast? = some marker → path.getLast? = some marker) :
    toPathname base (marker :: expandVersioned (path ++ '?' :: query)) =
      toPathname base (marker :: expandVersioned path) := by
  obtain ⟨rest, hrest⟩ := exists_expandVersioned_eq_append (path ++ '?' :: query)
  have hpath : toPathname base (marker :: expandVersioned path) =
      toPathname base (marker :: path) :=
    toPathname_congr rfl rfl (canonical_expandVersioned hkept)
  have hquery : marker :: expandVersioned (path ++ '?' :: query) =
      (marker :: path) ++ '?' :: (query ++ rest) := by
    rw [hrest]
    simp
  rw [hpath, hquery, toPathname_append_query base rfl]

end ModuleId

/-! ## Settling an id with a query -/

namespace Script

open ModuleId

variable {scope : Scope} {base referrer id query settled : Text}

/-- The query makes no difference to settling the id: the scope explains neither the id nor the part
of it that a slash in the query cuts off, a relative id has a last segment that is no step, no
segment of its query leads up out of the query, and no mark at the end of the settled id comes from
completing a directory. -/
structure QueryApart (scope : Scope) (id query settled : Text) : Prop where
  unaliased : '/' ∉ id → scope.aliasFor id = none ∧
    scope.aliasFor (id ++ '?' :: query.takeWhile (· != '/')) = none
  named : isRelative (expandAlias scope id) = true →
    lastSegment (expandAlias scope id) ≠ [] → IsName (lastSegment (expandAlias scope id))
  inside : isRelative (expandAlias scope id) = true →
    ['.', '.'] ∉ collapse false (segments query).tail
  kept : settled.tail.getLast? = some marker → (expandAlias scope id).getLast? = some marker

theorem expandAlias_of_not_mem (h : '/' ∉ id) (hnone : scope.aliasFor id = none) :
    expandAlias scope id = id := by
  rw [expandAlias, Text.cut?_eq_none h]
  simp only [hnone, Option.getD_none]

theorem expandAlias_append_slash {name : Text} (h : '/' ∉ name) (rest : Text) :
    expandAlias scope (name ++ '/' :: rest) = (scope.aliasFor name).getD name ++ '/' :: rest := by
  rw [expandAlias, Text.cut?_append_cons h]
  rcases halias : scope.aliasFor name with _ | path <;> simp [halias]

/-- An id with a slash has its name replaced before the query begins. -/
theorem expandAlias_append_query
    (h : '/' ∉ id → scope.aliasFor id = none ∧
      scope.aliasFor (id ++ '?' :: query.takeWhile (· != '/')) = none) :
    expandAlias scope (id ++ '?' :: query) = expandAlias scope id ++ '?' :: query := by
  -- The name ends at the first slash: in the id, or in the query, or nowhere.
  by_cases hslash : '/' ∈ id
  · obtain ⟨name, rest, rfl, hname⟩ := List.eq_append_cons_of_mem hslash
    rw [List.append_assoc, List.cons_append, expandAlias_append_slash hname,
      expandAlias_append_slash hname, List.append_assoc, List.cons_append]
  · obtain ⟨hid, hwith⟩ := h hslash
    rw [expandAlias_of_not_mem hslash hid]
    by_cases hquery : '/' ∈ query
    · obtain ⟨before, after, rfl, hbefore⟩ := List.eq_append_cons_of_mem hquery
      have hname : '/' ∉ id ++ '?' :: before := by simp [hslash, hbefore]
      have hcut : (before ++ '/' :: after).takeWhile (· != '/') = before := by
        rw [List.takeWhile_append_of_pos (Text.bne_of_not_mem hbefore)]
        simp
      rw [hcut] at hwith
      have hassoc : id ++ '?' :: (before ++ '/' :: after) =
          (id ++ '?' :: before) ++ '/' :: after := by simp
      rw [hassoc, expandAlias_append_slash hname, hwith, Option.getD_none]
    · rw [List.takeWhile_eq_self_iff.2 (Text.bne_of_not_mem hquery)] at hwith
      exact expandAlias_of_not_mem (by simp [hslash, hquery]) hwith

/-- Only the absent id stands for itself. -/
theorem expandAlias_ne_absent (hid : id ≠ absent)
    (h : '/' ∉ id → scope.aliasFor id = none) : expandAlias scope id ≠ absent := by
  by_cases hslash : '/' ∈ id
  · obtain ⟨name, rest, rfl, hname⟩ := List.eq_append_cons_of_mem hslash
    rw [expandAlias_append_slash hname]
    intro heq
    have hmem : '/' ∈ absent := by rw [← heq]; simp
    exact absurd hmem (by decide)
  · rwa [expandAlias_of_not_mem hslash (h hslash)]

theorem append_query_ne_absent (id query : Text) : id ++ '?' :: query ≠ absent := by
  intro heq
  have hmem : '?' ∈ absent := by rw [← heq]; simp
  exact absurd hmem (by decide)

/-- A relative reference keeps its query, and leads where it leads without. -/
theorem exists_ofReference_relative_query {reference : Text}
    (hrelative : isRelative reference = true)
    (hsettled : ofReference base referrer reference = .ok settled)
    (hnamed : lastSegment reference ≠ [] → IsName (lastSegment reference))
    (hinside : ['.', '.'] ∉ collapse false (segments query).tail)
    (hkept : settled.tail.getLast? = some marker → reference.getLast? = some marker) :
    ∃ withQuery, ofReference base referrer (reference ++ '?' :: query) = .ok withQuery ∧
      toPathname base withQuery = toPathname base settled := by
  obtain ⟨rest, rfl⟩ : ∃ rest, reference = '.' :: rest := by
    simpa [isRelative, List.head?_eq_some_iff] using hrelative
  obtain ⟨before, hdirectory⟩ := exists_directory_eq referrer
  have hlast : lastSegment (directory referrer ++ '.' :: rest) = lastSegment ('.' :: rest) := by
    rw [hdirectory, List.append_assoc, List.singleton_append, lastSegment_append_slash]
  rw [← hlast] at hnamed
  have hresolve : ∀ text, resolve referrer ('.' :: text) =
      normalize (directory referrer ++ '.' :: text) := fun _ => rfl
  obtain ⟨inner, hinner⟩ : ∃ inner, resolve referrer ('.' :: rest) = base ++ inner := by
    by_contra hnone
    have houtside : ¬ base <+: resolve referrer ('.' :: rest) := by
      rintro ⟨inner, hinner⟩
      exact hnone ⟨inner, hinner.symm⟩
    rw [(ofReference_eq_outsideBase_iff hrelative).2 houtside] at hsettled
    simp at hsettled
  rw [ofReference_of_append hrelative hinner] at hsettled
  obtain rfl := Except.ok.inj hsettled
  obtain ⟨behind, hbehind⟩ := exists_normalize_append_query query hnamed hinside
  have hwith : resolve referrer ('.' :: rest ++ '?' :: query) =
      base ++ (inner ++ '?' :: behind) := by
    rw [List.cons_append, hresolve, ← List.cons_append, ← List.append_assoc, hbehind, ← hresolve,
      hinner, List.append_assoc]
  refine ⟨_, ofReference_of_append hrelative hwith,
    toPathname_expandVersioned_query base behind fun hmark => ?_⟩
  -- the mark at the end of the reference is the one at the end of its path
  have hreference := getLast?_lastSegment (by decide) (hkept hmark)
  rw [← hlast, ← lastSegment_normalize hnamed, ← hresolve, hinner] at hreference
  have hwhole := getLast?_of_lastSegment hreference
  rcases eq_or_ne inner [] with rfl | hne
  · exact absurd hmark (by decide)
  · rwa [List.getLast?_append_of_ne_nil _ hne] at hwhole

theorem not_absent_or_isCanonical_of_eq_false (hid : id ≠ absent) (h : isCanonical id = false) :
    ¬ (id = absent ∨ isCanonical id = true) := by
  rintro (heq | htrue)
  · exact hid heq
  · exact Bool.noConfusion (h.symm.trans htrue)

/-- A reference to a module keeps its query, and leads where it leads without. -/
theorem exists_ofReference_query {reference : Text} (hne : reference ≠ absent)
    (hsettled : ofReference base referrer reference = .ok settled)
    (hnamed : isRelative reference = true →
      lastSegment reference ≠ [] → IsName (lastSegment reference))
    (hinside : isRelative reference = true → ['.', '.'] ∉ collapse false (segments query).tail)
    (hkept : settled.tail.getLast? = some marker → reference.getLast? = some marker) :
    ∃ withQuery, ofReference base referrer (reference ++ '?' :: query) = .ok withQuery ∧
      toPathname base withQuery = toPathname base settled := by
  have hcanonical := isCanonical_append_query reference query
  have hne' := append_query_ne_absent reference query
  rcases hmark : isCanonical reference with _ | _
  · rcases hrelative : isRelative reference with _ | _
    · rw [ofReference, if_neg (not_absent_or_isCanonical_of_eq_false hne hmark), hrelative,
        if_neg Bool.false_ne_true] at hsettled
      obtain rfl := Except.ok.inj hsettled
      refine ⟨_, ?_, toPathname_expandVersioned_query base query hkept⟩
      rw [ofReference, if_neg (not_absent_or_isCanonical_of_eq_false hne' (hcanonical.trans hmark)),
        isRelative_append_query, hrelative, if_neg Bool.false_ne_true]
    · exact exists_ofReference_relative_query hrelative hsettled (hnamed hrelative)
        (hinside hrelative) hkept
  · rw [ofReference, if_pos (.inr hmark)] at hsettled
    obtain rfl := Except.ok.inj hsettled
    refine ⟨_, ?_, toPathname_append_query base hmark query⟩
    rw [ofReference, if_pos (.inr (hcanonical.trans hmark))]

/-- An id that settles also settles with a query behind it, and leads to the same pathname, where it
is canonical or the query makes no difference to settling it. -/
theorem exists_settleId_query (hid : id ≠ absent)
    (hsettled : settleId scope base referrer id = .ok settled)
    (hquery : isCanonical id = false → QueryApart scope id query settled) :
    ∃ withQuery, settleId scope base referrer (id ++ '?' :: query) = .ok withQuery ∧
      toPathname base withQuery = toPathname base settled := by
  have hcanonical := isCanonical_append_query id query
  have hne := append_query_ne_absent id query
  rcases hmark : isCanonical id with _ | _
  · obtain ⟨hunaliased, hnamed, hinside, hkept⟩ := hquery hmark
    have hreference := expandAlias_ne_absent hid fun hslash => (hunaliased hslash).1
    rw [settleId, if_neg (not_absent_or_isCanonical_of_eq_false hid hmark)] at hsettled
    rw [settleId, if_neg (not_absent_or_isCanonical_of_eq_false hne (hcanonical.trans hmark)),
      expandAlias_append_query hunaliased]
    exact exists_ofReference_query hreference hsettled hnamed hinside hkept
  · rw [settleId, if_pos (.inr hmark)] at hsettled
    obtain rfl := Except.ok.inj hsettled
    refine ⟨_, ?_, toPathname_append_query base hmark query⟩
    rw [settleId, if_pos (.inr (hcanonical.trans hmark))]

/-- A scope that explains one name. -/
def jqueryScope : Scope :=
  ⟨.ofList [(("jquery" : Text), ("lib/jquery" : Text))], .empty, none⟩

/-- A query with a way up inside it leads to the file beside. -/
theorem exists_settleId_query_sibling :
    settleId jqueryScope "/srv/" "/srv/app/main.js" "./util" = .ok "#app/util" ∧
    toPathname "/srv/" "#app/util" = "/srv/app/util.js".toList ∧
    ∃ withQuery, settleId jqueryScope "/srv/" "/srv/app/main.js"
        (("./util" : Text) ++ '?' :: ("from=a/b/../c" : Text)) = .ok withQuery ∧
      toPathname "/srv/" withQuery = toPathname "/srv/" "#app/util" := by
  have hsettled : settleId jqueryScope "/srv/" "/srv/app/main.js" "./util" = .ok "#app/util" := by
    decide +kernel
  have hapart : QueryApart jqueryScope "./util" "from=a/b/../c" "#app/util" :=
    ⟨fun hslash => absurd hslash (by decide), by decide +kernel, by decide +kernel,
      by decide +kernel⟩
  exact ⟨hsettled, by decide +kernel,
    exists_settleId_query (by decide) hsettled fun _ => hapart⟩

/-- A query hides the name of an alias from the scope, makes a name of a step up, and leads out of
the base by the steps up that it has itself. -/
theorem settleId_query_elsewhere :
    (settleId jqueryScope "/srv/" "/srv/main.js" "jquery" = .ok "#lib/jquery" ∧
      settleId jqueryScope "/srv/" "/srv/main.js" "jquery?v=1" = .ok "#jquery?v=1" ∧
      toPathname "/srv/" "#lib/jquery" = "/srv/lib/jquery.js".toList ∧
      toPathname "/srv/" "#jquery?v=1" = "/srv/jquery.js".toList) ∧
    (settleId .empty "/srv/" "/srv/app/lib/main.js" ".." = .ok "#app" ∧
      settleId .empty "/srv/" "/srv/app/lib/main.js" "..?v=1" = .ok "#app/lib/..?v=1" ∧
      toPathname "/srv/" "#app" = "/srv/app.js".toList ∧
      toPathname "/srv/" "#app/lib/..?v=1" = "/srv/app/lib/...js".toList) ∧
    (settleId .empty "/srv/" "/srv/app/main.js" "./util" = .ok "#app/util" ∧
      settleId .empty "/srv/" "/srv/app/main.js" "./util?from=/../../../x" =
        .error (.outsideBase "./util?from=/../../../x" "/srv/app/main.js")) := by
  decide +kernel

end Script

end ModuleCompiler
