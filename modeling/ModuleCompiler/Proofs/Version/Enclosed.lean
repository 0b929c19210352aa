import ModuleCompiler.Proofs.Lists
import ModuleCompiler.Proofs.Version.Pinning
import ModuleCompiler.Proofs.Version.Printing

/-!
# Taking a version out of a pathname and putting one in

The version of a pathname is the first segment with a slash on each side that is one. Taken out, it
leaves the package and the path inside it; put back between them, in this or in another version, it
is found in the same place again, as the package holds no version before it. So a pathname that was
resolved stays as it is when it is resolved a second time.

`Encloses` is a segment with a slash on each side, in the text and not in a list of segments. What
parsing does to segments is carried over to it by `mem_tail_segments_iff`: the segments enclosed
before a slash are those of the text up to there, without the first. `parse_eq_some_iff_encloses`
and `parse_eq_none_iff_encloses` then read parsing off the text, and `parse_pinned` and
`resolveVersion_of_resolved` are the two ways back.
-/

namespace ModuleCompiler

open Path

namespace VersionedPath

/-- The text holds a segment with a slash on each side, and `before` and `after` outside of them. -/
structure Encloses (text before segment after : Text) : Prop where
  eq : text = before ++ '/' :: segment ++ '/' :: after
  slash_not_mem : '/' ∉ segment

variable {text before segment after pathname package behind : Text} {path : VersionedPath}

/-! ## Segments between slashes -/

theorem exists_segments_cons (text : Text) : ∃ first rest, segments text = first :: rest :=
  List.exists_cons_of_ne_nil (segments_ne_nil text)

theorem Encloses.segments_eq (h : Encloses text before segment after) :
    segments text = segments before ++ segment :: segments after := by
  rw [h.eq, List.append_assoc, List.cons_append, segments_append_slash',
    segments_append_slash h.slash_not_mem]

theorem encloses_of_segments {pieces rest : List Text} (hpieces : pieces ≠ []) (hrest : rest ≠ [])
    (h : segments text = pieces ++ segment :: rest) :
    Encloses text (ofSegments pieces) segment (ofSegments rest) := by
  have hmem : segment ∈ segments text := by rw [h]; simp
  refine ⟨?_, slash_not_mem_of_mem_segments hmem⟩
  rw [← ofSegments_append_cons hpieces hrest, ← h, ofSegments_segments]

/-- A segment enclosed before a slash of a text ends at this slash or before it. -/
theorem Encloses.exists_rest (h : Encloses (package ++ '/' :: behind) before segment after)
    (hlength : before.length < package.length) :
    ∃ rest, package = before ++ '/' :: rest ∧ segment ++ '/' :: after = rest ++ '/' :: behind := by
  have hsplit : package ++ '/' :: behind = before ++ '/' :: (segment ++ '/' :: after) := by
    rw [h.eq]
    simp
  rcases append_eq_append_cons hsplit with ⟨inner, hinner, -⟩ | ⟨rest, hpackage, hrest⟩
  · rw [hinner, List.length_append] at hlength
    omega
  · exact ⟨rest, hpackage, hrest⟩

/-- The segments of a text that are enclosed before one of its slashes are those of the text up to
there, without the first. -/
theorem mem_tail_segments_iff {other : Text} :
    other ∈ (segments package).tail ↔
      ∃ before after, Encloses (package ++ '/' :: behind) before other after ∧
        before.length < package.length := by
  constructor
  · -- a segment but the first has a slash in front, and the given slash behind the text is one
    -- behind it
    intro hmem
    obtain ⟨first, rest, hcons⟩ := exists_segments_cons package
    rw [hcons, List.tail_cons] at hmem
    obtain ⟨front, back, rfl⟩ := List.append_of_mem hmem
    have hpackage : segments package = (first :: front) ++ other :: back := hcons
    have hsegments : segments (package ++ '/' :: behind) =
        (first :: front) ++ other :: (back ++ segments behind) := by
      rw [segments_append_slash', hpackage]
      simp
    have hrest : back ++ segments behind ≠ [] :=
      List.append_ne_nil_of_right_ne_nil _ (segments_ne_nil behind)
    refine ⟨ofSegments (first :: front), _, encloses_of_segments (by simp) hrest hsegments, ?_⟩
    rw [← ofSegments_segments package, hpackage, ofSegments_append (by simp) (by simp),
      List.length_append, List.length_cons]
    omega
  · rintro ⟨before, after, hencloses, hlength⟩
    obtain ⟨rest, hpackage, hrest⟩ := hencloses.exists_rest hlength
    have hfirst : segments rest ++ segments behind = other :: segments after := by
      rw [← segments_append_slash', ← hrest, segments_append_slash hencloses.slash_not_mem]
    obtain ⟨first, others, hothers⟩ := exists_segments_cons rest
    obtain ⟨start, front, hbefore⟩ := exists_segments_cons before
    rw [hothers, List.cons_append] at hfirst
    rw [hpackage, segments_append_slash', hbefore, hothers, (List.cons.inj hfirst).1]
    simp

/-! ## Parsing -/

theorem isVersionSegment_of_ofText? {constraint : Constraint}
    (h : Constraint.ofText? segment = some constraint) : isVersionSegment segment = true := by
  obtain ⟨parts, hparts, -⟩ := Option.bind_eq_some_iff.1 h
  rw [isVersionSegment, hparts]
  rfl

/-- A pathname is its package, its version and the path inside, with slashes between them, and no
segment of the package with a slash before it is a version. -/
theorem parse_eq_some_iff_encloses :
    parse pathname = .ok (some path) ↔
      '\n' ∉ pathname ∧
      (∃ segment, Encloses pathname path.package segment path.inner ∧
        Constraint.ofText? segment = some path.constraint) ∧
      ∀ other ∈ (segments path.package).tail, isVersionSegment other = false := by
  rw [parse_eq_some_iff]
  refine and_congr_right fun _ => ?_
  constructor
  · rintro ⟨before, segment, after, hsplit, hafter, hconstraint, hpackage, hinner⟩
    have hslash : ∀ piece ∈ before, '/' ∉ piece := fun piece hmem =>
      slash_not_mem_of_mem_segments (show piece ∈ segments pathname by rw [hsplit.eq]; simp [hmem])
    have hencloses := encloses_of_segments hsplit.before_ne_nil hafter hsplit.eq
    rw [← hpackage, ← hinner] at hencloses
    refine ⟨⟨segment, hencloses, hconstraint⟩, ?_⟩
    rw [hpackage, segments_ofSegments hsplit.before_ne_nil hslash]
    exact hsplit.first
  · rintro ⟨⟨segment, hencloses, hconstraint⟩, hfirst⟩
    exact ⟨segments path.package, segment, segments path.inner,
      ⟨hencloses.segments_eq, segments_ne_nil _, isVersionSegment_of_ofText? hconstraint,
        hfirst⟩,
      segments_ne_nil _, hconstraint, (ofSegments_segments _).symm,
      (ofSegments_segments _).symm⟩

/-- A pathname is not versioned when a line breaks in it or no enclosed segment is a version. -/
theorem parse_eq_none_iff_encloses :
    parse pathname = .ok none ↔
      '\n' ∈ pathname ∨
        ∀ before segment after, Encloses pathname before segment after →
          isVersionSegment segment = false := by
  rw [parse_eq_none_iff]
  refine or_congr_right ?_
  constructor
  · rintro hnone before segment after hencloses
    obtain ⟨first, rest, hcons⟩ := exists_segments_cons before
    rw [hencloses.segments_eq, hcons] at hnone
    rcases hnone with hnone | ⟨front, final, hsplit⟩
    · exact hnone segment (by simp)
    · -- the version that is found has no slash behind it, and all others stand before it
      obtain ⟨ahead, last, hafter⟩ :=
        (List.eq_nil_or_concat' (segments after)).resolve_left (segments_ne_nil after)
      have hconcat : (first :: rest ++ segment :: ahead) ++ [last] = front ++ [final] := by
        rw [← hsplit.eq, hafter]
        simp
      obtain ⟨rfl, -⟩ := List.append_inj' hconcat rfl
      exact hsplit.first segment (by simp)
  · intro hnone
    -- no segment but the first is a version, or the one that is found ends the pathname: otherwise
    -- it would be enclosed
    by_cases hall : ∀ segment ∈ (segments pathname).tail, isVersionSegment segment = false
    · exact .inl hall
    · right
      rw [← splitAtVersion?_eq_none_iff] at hall
      obtain ⟨⟨before, segment, after⟩, hsome⟩ := Option.ne_none_iff_exists'.1 hall
      have hsplit := splitAtVersion?_eq_some_iff.1 hsome
      rcases eq_or_ne after [] with rfl | hafter
      · exact ⟨before, segment, hsplit⟩
      · have hfalse := hnone _ _ _ (encloses_of_segments hsplit.before_ne_nil hafter hsplit.eq)
        rw [hsplit.isVersion] at hfalse
        exact Bool.noConfusion hfalse

/-! ## Putting a version in -/

/-- A pathname in another version has the same package and the same path inside. -/
theorem parse_pinned (h : parse pathname = .ok (some path)) (version : Version) :
    parse (path.pinned version) = .ok (some ⟨path.package, ⟨version, .exact⟩, path.inner⟩) := by
  obtain ⟨hline, ⟨segment, hencloses, -⟩, hfirst⟩ := parse_eq_some_iff_encloses.1 h
  have hslash : '/' ∉ version.toText := version.not_mem_toText (by decide) (by decide)
  refine parse_eq_some_iff_encloses.2
    ⟨?_, ⟨version.toText, ⟨rfl, hslash⟩, Constraint.ofText?_version version⟩, hfirst⟩
  rw [hencloses.eq] at hline
  have hversion : '\n' ∉ version.toText := version.not_mem_toText (by decide) (by decide)
  simp_all [pinned]

end VersionedPath

open VersionedPath

variable {pathname answer : Text} {trace : Trace}

/-- What a resolution answers is resolved to itself. -/
theorem resolveVersion_of_resolved (h : resolveVersion pathname trace = .ok (some answer)) :
    resolveVersion answer trace = .ok (some answer) := by
  rcases hparse : parse pathname with error | _ | path
  · simp [resolveVersion, hparse] at h
  · obtain rfl : pathname = answer := by simpa [resolveVersion, hparse] using h
    exact h
  · obtain ⟨hsatisfiable, hanswer⟩ := (resolveVersion_eq_ok_iff hparse).1 h
    obtain ⟨version, rfl⟩ : ∃ version, answer = path.pinned version := by
      split at hanswer
      · exact ⟨_, Option.some.inj hanswer⟩
      · obtain ⟨version, -, hversion⟩ := Option.map_eq_some_iff.1 hanswer.symm
        exact ⟨version, hversion.symm⟩
    -- the answer has the same package, and its constraints are satisfied as before
    rw [resolveVersion_of_satisfiable (parse_pinned hparse version) hsatisfiable]
    rfl

/-- For every pathname: when it is versioned, it is its package, a segment that reads as its
constraint and the path inside it, with slashes between them, and no segment that is enclosed by
slashes further ahead is a version; in any other version it has the same package and the same path
inside. It is not versioned exactly when a line breaks in it or no enclosed segment is a version.
What it is resolved to by the files of a trace is resolved to itself by them. -/
theorem versions_between_slashes (pathname : Text) :
    (∀ path, parse pathname = .ok (some path) →
      (∃ segment, pathname = path.package ++ '/' :: segment ++ '/' :: path.inner ∧
        Constraint.ofText? segment = some path.constraint) ∧
      (∀ before other after, Encloses pathname before other after →
        before.length < path.package.length → isVersionSegment other = false) ∧
      ∀ version, parse (path.pinned version) =
        .ok (some ⟨path.package, ⟨version, .exact⟩, path.inner⟩)) ∧
    (parse pathname = .ok none ↔
      '\n' ∈ pathname ∨
        ¬ ∃ before segment after, Encloses pathname before segment after ∧
          isVersionSegment segment = true) ∧
    ∀ trace answer, resolveVersion pathname trace = .ok (some answer) →
      resolveVersion answer trace = .ok (some answer) := by
  refine ⟨fun path hparse => ?_, ?_, fun trace answer => resolveVersion_of_resolved⟩
  · obtain ⟨-, ⟨segment, hencloses, hconstraint⟩, hfirst⟩ := parse_eq_some_iff_encloses.1 hparse
    refine ⟨⟨segment, hencloses.eq, hconstraint⟩, fun before other after hother hlength => ?_,
      parse_pinned hparse⟩
    rw [hencloses.eq, List.append_assoc] at hother
    exact hfirst other (mem_tail_segments_iff.2 ⟨before, after, hother, hlength⟩)
  · rw [parse_eq_none_iff_encloses]
    simp

/-- Of two versions the first counts, and the second stays inside the package of the first; a
version that the files of a trace pin is put in once. -/
theorem versions_between_slashes_twice :
    parse "/lib/x/1.0.0+/y/2.0.0-/y.js" =
      .ok (some ⟨"/lib/x", ⟨⟨1, 0, 0⟩, .atLeast⟩, "y/2.0.0-/y.js"⟩) ∧
    parse "/lib/x/1.10.0/y/2.0.0-/y.js" =
      .ok (some ⟨"/lib/x", ⟨⟨1, 10, 0⟩, .exact⟩, "y/2.0.0-/y.js"⟩) ∧
    parse "/lib/x/y.js" = .ok none ∧
    resolveVersion "/lib/x/1.0.0+/y/2.0.0-/y.js" pinningChain =
      .ok (some "/lib/x/1.1.0/y/2.0.0-/y.js".toList) ∧
    resolveVersion "/lib/x/1.1.0/y/2.0.0-/y.js" pinningChain =
      .ok (some "/lib/x/1.1.0/y/2.0.0-/y.js".toList) := by
  have hparse : parse "/lib/x/1.0.0+/y/2.0.0-/y.js" =
      .ok (some ⟨"/lib/x", ⟨⟨1, 0, 0⟩, .atLeast⟩, "y/2.0.0-/y.js"⟩) := by decide +kernel
  have hresolve : resolveVersion "/lib/x/1.0.0+/y/2.0.0-/y.js" pinningChain =
      .ok (some "/lib/x/1.1.0/y/2.0.0-/y.js".toList) := by decide +kernel
  have hplain : ¬ ∃ before segment after, Encloses "/lib/x/y.js" before segment after ∧
      isVersionSegment segment = true := by
    rintro ⟨before, segment, after, hencloses, hversion⟩
    have hall : ∀ segment ∈ segments "/lib/x/y.js", isVersionSegment segment = false := by
      decide +kernel
    rw [hall segment (by rw [hencloses.segments_eq]; simp)] at hversion
    exact Bool.noConfusion hversion
  obtain ⟨hversioned, -, hagain⟩ := versions_between_slashes "/lib/x/1.0.0+/y/2.0.0-/y.js"
  obtain ⟨-, -, hpinned⟩ := hversioned _ hparse
  have htext : VersionedPath.pinned ⟨"/lib/x", ⟨⟨1, 0, 0⟩, .atLeast⟩, "y/2.0.0-/y.js"⟩ ⟨1, 10, 0⟩ =
      "/lib/x/1.10.0/y/2.0.0-/y.js".toList := by decide +kernel
  have hother := hpinned ⟨1, 10, 0⟩
  rw [htext] at hother
  exact ⟨hparse, hother, (versions_between_slashes "/lib/x/y.js").2.1.2 (.inr hplain), hresolve,
    hagain _ _ hresolve⟩

end ModuleCompiler
