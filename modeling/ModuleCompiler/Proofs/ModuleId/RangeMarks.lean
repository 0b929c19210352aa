import ModuleCompiler.ModuleId
import ModuleCompiler.Proofs.Lists
import ModuleCompiler.Proofs.Version.Expansion

/-!
# Range marks taken off a pathname

The marks are taken off by going through the pathname as a text: wherever a version `X.Y.Z` with a
mark behind it comes next, the mark is left out. No version has a slash, so each segment is read on
its own, and a segment that is a ranged version loses its mark. But nothing asks for the version to
be the whole segment, so a `+` or `-` behind a version inside a longer name is left out as well.

`StartsRanged` says that a ranged version comes next, and that is what is looked for
(`rangedVersionLength?_eq_some_iff`). A text is gone through in two steps, one for each outcome of
the search (`withoutRanges_of_startsRanged`, `withoutRanges_cons`), and `ranged_induction` is the
induction along them. By it, each segment is read on its own (`withoutRanges_ofSegments`), and a
text stays as it is if it has no ranged version anywhere (`withoutRanges_eq_self_iff`);
`withoutRanges_eq_unranged_iff` is both of them for a pathname.
-/

namespace ModuleCompiler.ModuleId

open Path Unicode

variable {text version after : Text} {mark : Char}

/-! ## Ranged versions -/

/-- The text starts with a version, a range mark comes behind it and then `after`. -/
structure StartsRanged (text version : Text) (mark : Char) (after : Text) : Prop where
  isVersion : isExactSegment version = true
  isMark : mark = '+' ∨ mark = '-'
  eq : text = version ++ mark :: after

/-- A version is three runs of digits with dots between them. -/
theorem isExactSegment_iff : isExactSegment version = true ↔
    ∃ major minor patch, isDigitRun major = true ∧ isDigitRun minor = true ∧
      isDigitRun patch = true ∧ version = major ++ '.' :: minor ++ '.' :: patch := by
  rw [isExactSegment, Option.any_eq_true]
  constructor
  · rintro ⟨parts, hparts, hexact⟩
    obtain ⟨hmajor, hminor, hpatch, htext⟩ := VersionSegment.ofText?_eq_some_iff.1 hparts
    rw [beq_iff_eq.1 hexact, Direction.mark, List.append_nil] at htext
    exact ⟨parts.major, parts.minor, parts.patch, hmajor, hminor, hpatch, htext⟩
  · rintro ⟨major, minor, patch, hmajor, hminor, hpatch, rfl⟩
    refine ⟨⟨major, minor, patch, .exact⟩, ?_, rfl⟩
    exact VersionSegment.ofText?_eq_some_iff.2 ⟨hmajor, hminor, hpatch, (List.append_nil _).symm⟩

/-- A ranged segment is a version with a mark behind it. -/
theorem isRangedSegment_iff : isRangedSegment text = true ↔
    ∃ version mark, StartsRanged text version mark [] := by
  rw [isRangedSegment, Option.any_eq_true]
  constructor
  · rintro ⟨⟨major, minor, patch, direction⟩, hparts, hranged⟩
    obtain ⟨hmajor, hminor, hpatch, htext⟩ := VersionSegment.ofText?_eq_some_iff.1 hparts
    have hversion : isExactSegment (major ++ '.' :: minor ++ '.' :: patch) = true :=
      isExactSegment_iff.2 ⟨major, minor, patch, hmajor, hminor, hpatch, rfl⟩
    cases direction with
    | exact => simp at hranged
    | atLeast => exact ⟨_, '+', hversion, .inl rfl, htext⟩
    | atMost => exact ⟨_, '-', hversion, .inr rfl, htext⟩
  · rintro ⟨version, mark, hversion, hmark, rfl⟩
    obtain ⟨major, minor, patch, hmajor, hminor, hpatch, rfl⟩ := isExactSegment_iff.1 hversion
    rcases hmark with rfl | rfl
    · refine ⟨⟨major, minor, patch, .atLeast⟩, ?_, rfl⟩
      exact VersionSegment.ofText?_eq_some_iff.2 ⟨hmajor, hminor, hpatch, rfl⟩
    · refine ⟨⟨major, minor, patch, .atMost⟩, ?_, rfl⟩
      exact VersionSegment.ofText?_eq_some_iff.2 ⟨hmajor, hminor, hpatch, rfl⟩

namespace StartsRanged

theorem isRangedSegment (h : StartsRanged text version mark after) :
    isRangedSegment (version ++ [mark]) = true :=
  isRangedSegment_iff.2 ⟨version, mark, h.isVersion, h.isMark, rfl⟩

theorem ne_nil (h : StartsRanged text version mark after) : version ≠ [] := by
  obtain ⟨major, minor, patch, -, -, -, rfl⟩ := isExactSegment_iff.1 h.isVersion
  simp

theorem slash_not_mem (h : StartsRanged text version mark after) : '/' ∉ version ++ [mark] :=
  (isName_of_isVersionSegment (isVersionSegment_of_isRangedSegment h.isRangedSegment)).slash_not_mem

end StartsRanged

/-- What follows a run of digits is found if no digit follows it. -/
theorem afterDigits?_eq_some_iff : afterDigits? text = some after ↔
    ∃ run, isDigitRun run = true ∧ text = run ++ after ∧
      ∀ c ∈ after.head?, isDecimalDigit c = false := by
  constructor
  · intro h
    rcases text with _ | ⟨c, rest⟩
    · simp [afterDigits?] at h
    rw [afterDigits?] at h
    split at h
    · rename_i hdigit
      obtain rfl := Option.some.inj h
      refine ⟨c :: rest.takeWhile isDecimalDigit, ?_, ?_, fun d hd => ?_⟩
      · simp [isDigitRun, hdigit, List.all_takeWhile]
      · rw [List.cons_append, List.takeWhile_append_dropWhile]
      · have hnot := List.head?_dropWhile_not isDecimalDigit rest
        rw [hd] at hnot
        simpa using hnot
    · simp at h
  · rintro ⟨run, hrun, rfl, hafter⟩
    obtain ⟨c, digits, rfl⟩ := List.exists_cons_of_ne_nil (ne_nil_of_isDigitRun hrun)
    obtain ⟨hc, hdigits⟩ := List.forall_mem_cons.1 (isDecimalDigit_of_mem hrun)
    rw [List.cons_append, afterDigits?, if_pos hc, List.dropWhile_append_of_pos hdigits]
    rcases after with _ | ⟨d, after⟩
    · rfl
    · rw [List.dropWhile_cons_of_neg (by simp [hafter d rfl])]

theorem afterDot?_eq_some_iff : afterDot? text = some after ↔ text = '.' :: after := by
  unfold afterDot?
  split
  · simp
  · rename_i hdot
    refine ⟨fun h => by simp at h, fun h => absurd h (hdot after)⟩

/-- What is looked for is a version with a range mark behind it. -/
theorem rangedVersionLength?_eq_some_iff {length : Nat} :
    rangedVersionLength? text = some length ↔
      ∃ version mark after, StartsRanged text version mark after ∧ version.length = length := by
  unfold rangedVersionLength?
  simp only [bind, Option.bind_eq_some_iff, afterDigits?_eq_some_iff, afterDot?_eq_some_iff]
  constructor
  · rintro ⟨_, ⟨major, hmajor, rfl, -⟩, _, rfl, _, ⟨minor, hminor, rfl, -⟩, _, rfl, final,
      ⟨patch, hpatch, rfl, -⟩, hlength⟩
    have hversion : isExactSegment (major ++ '.' :: minor ++ '.' :: patch) = true :=
      isExactSegment_iff.2 ⟨major, minor, patch, hmajor, hminor, hpatch, rfl⟩
    split at hlength
    · rename_i after
      refine ⟨_, '+', after, ⟨hversion, .inl rfl, by simp⟩, ?_⟩
      rw [← Option.some.inj hlength]
      simp
      omega
    · rename_i after
      refine ⟨_, '-', after, ⟨hversion, .inr rfl, by simp⟩, ?_⟩
      rw [← Option.some.inj hlength]
      simp
      omega
    · simp at hlength
  · rintro ⟨version, mark, after, ⟨hversion, hmark, rfl⟩, rfl⟩
    obtain ⟨major, minor, patch, hmajor, hminor, hpatch, rfl⟩ := isExactSegment_iff.1 hversion
    -- each run of digits ends where a dot or the mark comes
    have hdot : ∀ rest : Text, ∀ c ∈ ('.' :: rest).head?, isDecimalDigit c = false := by
      intro rest c hc
      obtain rfl := Option.some.inj hc
      decide
    have hend : ∀ c ∈ (mark :: after).head?, isDecimalDigit c = false := by
      intro c hc
      obtain rfl := Option.some.inj hc
      rcases hmark with rfl | rfl <;> decide
    refine ⟨_, ⟨major, hmajor, by simp, hdot _⟩, _, rfl, _, ⟨minor, hminor, rfl, hdot _⟩, _, rfl,
      mark :: after, ⟨patch, hpatch, rfl, hend⟩, ?_⟩
    rcases hmark with rfl | rfl <;> simp <;> omega

/-! ## Going through a text -/

theorem withoutRangesFrom_append (front : Text) (mark : Char) (after : Text) :
    withoutRangesFrom (front.length + 1) (front ++ mark :: after) =
      front ++ withoutRanges after := by
  induction front with
  | nil => rfl
  | cons c front ih =>
    rw [List.length_cons, List.cons_append, withoutRangesFrom, ih, List.cons_append]

/-- A ranged version that comes next loses its mark. -/
theorem withoutRanges_of_startsRanged (h : StartsRanged text version mark after) :
    withoutRanges text = version ++ withoutRanges after := by
  have hlength : rangedVersionLength? text = some version.length :=
    rangedVersionLength?_eq_some_iff.2 ⟨version, mark, after, h, rfl⟩
  obtain ⟨c, front, rfl⟩ := List.exists_cons_of_ne_nil h.ne_nil
  rw [h.eq, List.cons_append] at hlength ⊢
  rw [withoutRanges, withoutRangesFrom, hlength, Option.getD_some, List.length_cons,
    withoutRangesFrom_append, List.cons_append]

/-- A character stays where no ranged version comes next. -/
theorem withoutRanges_cons {c : Char} {rest : Text}
    (h : ∀ version mark after, ¬ StartsRanged (c :: rest) version mark after) :
    withoutRanges (c :: rest) = c :: withoutRanges rest := by
  have hnone : rangedVersionLength? (c :: rest) = none := by
    by_contra hsome
    obtain ⟨length, hlength⟩ := Option.ne_none_iff_exists'.1 hsome
    obtain ⟨version, mark, after, hstarts, -⟩ := rangedVersionLength?_eq_some_iff.1 hlength
    exact h version mark after hstarts
  rw [withoutRanges, withoutRangesFrom, hnone, Option.getD_none, ← withoutRanges]

/-- What holds of the empty text and is kept by both steps holds of every text. -/
@[elab_as_elim]
theorem ranged_induction {motive : Text → Prop} (nil : motive [])
    (kept : ∀ c rest, (∀ version mark after, ¬ StartsRanged (c :: rest) version mark after) →
      motive rest → motive (c :: rest))
    (marked : ∀ text version mark after, StartsRanged text version mark after → motive after →
      motive text) (text : Text) : motive text := by
  induction hlength : text.length using Nat.strong_induction_on generalizing text with
  | _ length ih =>
    by_cases hstarts : ∃ version mark after, StartsRanged text version mark after
    · obtain ⟨version, mark, after, hstarts⟩ := hstarts
      refine marked text version mark after hstarts (ih after.length ?_ after rfl)
      rw [← hlength, hstarts.eq, List.length_append, List.length_cons]
      omega
    · rcases text with _ | ⟨c, rest⟩
      · exact nil
      · refine kept c rest (fun version mark after h => hstarts ⟨version, mark, after, h⟩)
          (ih rest.length ?_ rest rfl)
        rw [← hlength, List.length_cons]
        omega

theorem withoutRanges_sublist (text : Text) : (withoutRanges text).Sublist text := by
  induction text using ranged_induction with
  | nil => exact List.Sublist.refl _
  | kept c rest h ih =>
    rw [withoutRanges_cons h]
    exact ih.cons_cons c
  | marked text version mark after h ih =>
    rw [withoutRanges_of_startsRanged h, h.eq]
    exact (List.Sublist.refl version).append (ih.cons mark)

/-- A text is read up to a slash as if nothing came behind it. -/
theorem withoutRanges_append_slash (text more : Text) :
    withoutRanges (text ++ '/' :: more) = withoutRanges text ++ '/' :: withoutRanges more := by
  -- a ranged version has no slash, so it comes before the slash or behind it
  have hbefore : ∀ (front : Text) {version : Text} {mark : Char} {after : Text},
      StartsRanged (front ++ '/' :: more) version mark after →
        ∃ between, StartsRanged front version mark between := by
    intro front version mark after h
    have heq : (version ++ [mark]) ++ after = front ++ '/' :: more := by
      rw [h.eq]
      simp
    rcases append_eq_append_cons heq with ⟨between, hfront, -⟩ | ⟨between, hversion, -⟩
    · refine ⟨between, h.isVersion, h.isMark, ?_⟩
      rw [hfront]
      simp
    · refine absurd ?_ h.slash_not_mem
      rw [hversion]
      simp
  induction text using ranged_induction with
  | nil =>
    refine withoutRanges_cons fun version mark after h => ?_
    obtain ⟨between, hnil⟩ := hbefore [] h
    exact absurd hnil.eq (by simp)
  | kept c rest h ih =>
    rw [withoutRanges_cons h, List.cons_append, withoutRanges_cons, ih, List.cons_append]
    intro version mark after hstarts
    obtain ⟨between, hkept⟩ := hbefore (c :: rest) hstarts
    exact h version mark between hkept
  | marked text version mark after h ih =>
    have hmore : StartsRanged (text ++ '/' :: more) version mark (after ++ '/' :: more) :=
      ⟨h.isVersion, h.isMark, by rw [h.eq]; simp⟩
    rw [withoutRanges_of_startsRanged hmore, withoutRanges_of_startsRanged h, ih, List.append_assoc]

/-- A text stays as it is if it has no ranged version anywhere. -/
theorem withoutRanges_eq_self_iff : withoutRanges text = text ↔
    ∀ piece, isRangedSegment piece = true → ¬ piece <:+: text := by
  induction text using ranged_induction with
  | nil =>
    refine ⟨fun _ piece hranged hinfix => ?_, fun _ => rfl⟩
    obtain ⟨version, mark, h⟩ := isRangedSegment_iff.1 hranged
    rw [List.infix_nil.1 hinfix] at h
    exact absurd h.eq (by simp)
  | kept c rest h ih =>
    rw [withoutRanges_cons h, List.cons_inj_right, ih]
    refine forall₂_congr fun piece hranged => not_congr ?_
    -- the piece is no prefix, since no ranged version comes next
    rw [List.infix_cons_iff, or_iff_right]
    rintro ⟨after, hafter⟩
    obtain ⟨version, mark, hpiece⟩ := isRangedSegment_iff.1 hranged
    refine h version mark after ⟨hpiece.isVersion, hpiece.isMark, ?_⟩
    rw [← hafter, hpiece.eq]
    simp
  | marked text version mark after h ih =>
    refine iff_of_false (fun hsame => ?_) fun hnone => ?_
    · have hshorter := (withoutRanges_sublist after).length_le
      have hlength := congrArg List.length hsame
      rw [withoutRanges_of_startsRanged h, h.eq, List.length_append, List.length_append,
        List.length_cons] at hlength
      omega
    · refine hnone _ h.isRangedSegment ?_
      have heq : text = (version ++ [mark]) ++ after := by
        rw [h.eq]
        simp
      rw [heq]
      exact (List.prefix_append _ _).isInfix

/-! ## Segments -/

/-- The segment without its range mark, if it is a ranged version. -/
def unranged (segment : Text) : Text :=
  if isRangedSegment segment then segment.dropLast else segment

/-- A segment that is a ranged version loses its mark. -/
theorem withoutRanges_of_isRangedSegment {segment : Text} (h : isRangedSegment segment = true) :
    withoutRanges segment = segment.dropLast := by
  obtain ⟨version, mark, hstarts⟩ := isRangedSegment_iff.1 h
  rw [withoutRanges_of_startsRanged hstarts, hstarts.eq, List.dropLast_concat]
  exact List.append_nil version

/-- Each segment is read on its own. -/
theorem withoutRanges_ofSegments (pieces : List Text) :
    withoutRanges (ofSegments pieces) = ofSegments (pieces.map withoutRanges) := by
  induction pieces with
  | nil => rfl
  | cons piece rest ih =>
    rcases eq_or_ne rest [] with rfl | hne
    · simp
    · have hmap : rest.map withoutRanges ≠ [] := by simpa using hne
      rw [List.map_cons, ofSegments_cons piece hne, ofSegments_cons _ hmap,
        withoutRanges_append_slash, ih]

theorem slash_not_mem_unranged {segment : Text} (h : '/' ∉ segment) : '/' ∉ unranged segment := by
  unfold unranged
  split
  · exact fun hmem => h ((List.dropLast_sublist _).subset hmem)
  · exact h

/-- Taking the range marks off a pathname takes them off its ranged segments and leaves all others,
exactly if none of the others has a ranged version inside it. -/
theorem withoutRanges_eq_unranged_iff (pathname : Text) :
    withoutRanges pathname = ofSegments ((segments pathname).map unranged) ↔
      ∀ segment ∈ segments pathname, isRangedSegment segment = false →
        ∀ piece, isRangedSegment piece = true → ¬ piece <:+: segment := by
  have hslash : ∀ segment ∈ segments pathname, '/' ∉ segment := fun _ =>
    slash_not_mem_of_mem_segments
  have hread : withoutRanges pathname = ofSegments ((segments pathname).map withoutRanges) := by
    rw [← withoutRanges_ofSegments, ofSegments_segments]
  -- a path determines its segments, of which none has a slash
  have hsame : ofSegments ((segments pathname).map withoutRanges) =
      ofSegments ((segments pathname).map unranged) ↔
        (segments pathname).map withoutRanges = (segments pathname).map unranged := by
    refine ⟨fun heq => ?_, congrArg _⟩
    have hne : ∀ f : Text → Text, (segments pathname).map f ≠ [] := by
      simp [segments_ne_nil]
    rw [← segments_ofSegments (hne withoutRanges), heq, segments_ofSegments (hne unranged)]
    · exact List.forall_mem_map.2 fun segment hmem => slash_not_mem_unranged (hslash segment hmem)
    · exact List.forall_mem_map.2 fun segment hmem hinside =>
        hslash segment hmem ((withoutRanges_sublist segment).subset hinside)
  rw [hread, hsame, List.map_inj_left]
  refine forall₂_congr fun segment _ => ?_
  unfold unranged
  rcases hranged : isRangedSegment segment with _ | _
  · rw [if_neg Bool.false_ne_true, withoutRanges_eq_self_iff]
    exact ⟨fun h _ => h, fun h => h rfl⟩
  · rw [if_pos rfl, withoutRanges_of_isRangedSegment hranged]
    simp

/-- A file name with a version inside it and a `-` behind that, which is left out though the segment
is no ranged version, and a directory named for a release before the final one. -/
theorem withoutRanges_ne_unranged :
    withoutRanges "/lib/x/1.0.0+/jquery-1.7.2-min.js" = "/lib/x/1.0.0/jquery-1.7.2min.js" ∧
      ofSegments ((segments "/lib/x/1.0.0+/jquery-1.7.2-min.js").map unranged) =
        "/lib/x/1.0.0/jquery-1.7.2-min.js" ∧
      withoutRanges "/lib/x/1.0.0+/jquery-1.7.2-min.js" ≠
        ofSegments ((segments "/lib/x/1.0.0+/jquery-1.7.2-min.js").map unranged) ∧
      withoutRanges "/lib/x/1.0.0-beta/x.js" = "/lib/x/1.0.0beta/x.js" := by
  decide

end ModuleCompiler.ModuleId
