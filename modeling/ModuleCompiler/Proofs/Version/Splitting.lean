import Mathlib.Data.List.TakeWhile
import ModuleCompiler.Proofs.Path.Extension
import ModuleCompiler.Version.Versioned

/-!
# Splitting at a version

A versioned pathname is divided at the first of its segments that is a version and has a slash on
both sides. Pinning puts another version in the place of that segment and leaves the rest.

Two facts about version segments carry the module. They are three runs of digits with dots between
them and a mark (`VersionSegment.ofText?_eq_some_iff`), so a printed version is one and a file name
with an extension is none. And the division that is found is the first possible one: `SplitsAt` says
this of a path, and `splitAtVersion?_eq_some_iff` that it is what is found.
-/

namespace ModuleCompiler

open Path Unicode

/-! ## Version segments -/

/-- A run of digits has only digits. -/
theorem isDecimalDigit_of_mem {run : Text} (h : isDigitRun run = true) :
    ∀ c ∈ run, isDecimalDigit c = true := by
  rw [isDigitRun, Bool.and_eq_true, List.all_eq_true] at h
  exact h.2

/-- A run of digits is not empty. -/
theorem ne_nil_of_isDigitRun {run : Text} (h : isDigitRun run = true) : run ≠ [] := by
  rintro rfl
  simp [isDigitRun] at h

/-- What is no digit does not occur in a run of digits. -/
theorem not_mem_of_isDigitRun {run : Text} {c : Char} (h : isDigitRun run = true)
    (hc : isDecimalDigit c = false) : c ∉ run := by
  intro hmem
  rw [isDecimalDigit_of_mem h c hmem] at hc
  exact Bool.noConfusion hc

/-- A printed number is a run of digits. -/
theorem isDigitRun_ofNat (n : Nat) : isDigitRun (Text.ofNat n) = true := by
  rw [isDigitRun, Bool.and_eq_true, List.all_eq_true]
  refine ⟨by simp [Text.ofNat, Nat.toDigits_ne_nil], fun c hmem => ?_⟩
  exact isDecimalDigit_of_isDigit (Nat.isDigit_of_mem_toDigits (by decide) (by decide) hmem)

/-- A text is what is left of it and the mark that was taken off. -/
theorem Direction.eq_of_ofEnd {text rest : Text} {direction : Direction}
    (h : Direction.ofEnd text = (rest, direction)) : text = rest ++ direction.mark := by
  unfold Direction.ofEnd at h
  split at h
  · rename_i hlast
    obtain ⟨rfl, rfl⟩ := Prod.mk.inj h
    exact (List.dropLast_append_getLast? _ hlast).symm
  · rename_i hlast
    obtain ⟨rfl, rfl⟩ := Prod.mk.inj h
    exact (List.dropLast_append_getLast? _ hlast).symm
  · obtain ⟨rfl, rfl⟩ := Prod.mk.inj h
    simp [Direction.mark]

/-- The mark behind a run of digits is taken off again. -/
theorem Direction.ofEnd_append_mark {run : Text} (h : isDigitRun run = true)
    (direction : Direction) : Direction.ofEnd (run ++ direction.mark) = (run, direction) := by
  cases direction with
  | exact =>
    obtain ⟨front, c, rfl⟩ := (List.eq_nil_or_concat' run).resolve_left (ne_nil_of_isDigitRun h)
    have hdigit := isDecimalDigit_of_mem h c (by simp)
    -- a digit at the end is no mark
    have hplus : c ≠ '+' := by
      rintro rfl
      exact absurd hdigit (by decide)
    have hminus : c ≠ '-' := by
      rintro rfl
      exact absurd hdigit (by decide)
    simp only [Direction.mark, List.append_nil, Direction.ofEnd, List.getLast?_concat]
    split <;> simp_all
  | atLeast => simp [Direction.mark, Direction.ofEnd]
  | atMost => simp [Direction.mark, Direction.ofEnd]

/-- A version segment is three runs of digits with dots between them and a mark. -/
theorem VersionSegment.ofText?_eq_some_iff {text : Text} {parts : VersionSegment} :
    VersionSegment.ofText? text = some parts ↔
      isDigitRun parts.major = true ∧ isDigitRun parts.minor = true ∧
        isDigitRun parts.patch = true ∧
        text = parts.major ++ '.' :: parts.minor ++ '.' :: parts.patch ++ parts.direction.mark := by
  constructor
  · intro h
    unfold VersionSegment.ofText? at h
    split at h
    · rename_i major minor final hsplit
      rcases hend : Direction.ofEnd final with ⟨patch, direction⟩
      simp only [hend] at h
      split at h
      · rename_i hruns
        obtain rfl := Option.some.inj h
        simp only [Bool.and_eq_true] at hruns
        refine ⟨hruns.1.1, hruns.1.2, hruns.2, ?_⟩
        have htext : ['.'].intercalate (text.splitOn '.') = text := List.intercalate_splitOn '.'
        rw [← htext, hsplit, Direction.eq_of_ofEnd hend]
        simp [List.intercalate_cons_cons]
      · simp at h
    · simp at h
  · rintro ⟨hmajor, hminor, hpatch, rfl⟩
    have hdot : isDecimalDigit '.' = false := by decide
    have hmark : '.' ∉ parts.direction.mark := by cases parts.direction <;> decide
    -- the dots between the runs are the only ones
    have hpieces : ∀ piece ∈ [parts.major, parts.minor, parts.patch ++ parts.direction.mark],
        '.' ∉ piece := by
      simp only [List.forall_mem_cons, List.not_mem_nil, List.mem_append, not_or]
      exact ⟨not_mem_of_isDigitRun hmajor hdot, not_mem_of_isDigitRun hminor hdot,
        ⟨not_mem_of_isDigitRun hpatch hdot, hmark⟩, by simp⟩
    have hsplit := List.splitOn_intercalate '.' hpieces (List.cons_ne_nil _ _)
    rw [List.intercalate_cons_cons, List.intercalate_cons_cons,
      List.intercalate_singleton] at hsplit
    simp only [List.append_assoc, List.cons_append, List.nil_append] at hsplit ⊢
    rw [VersionSegment.ofText?, hsplit]
    simp [Direction.ofEnd_append_mark hpatch, hmajor, hminor, hpatch]

/-- A printed version with a mark behind it is a version segment. -/
theorem VersionSegment.ofText?_toText (version : Version) (direction : Direction) :
    VersionSegment.ofText? (version.toText ++ direction.mark) =
      some ⟨Text.ofNat version.major.toNat, Text.ofNat version.minor.toNat,
        Text.ofNat version.patch.toNat, direction⟩ := by
  rw [VersionSegment.ofText?_eq_some_iff]
  exact ⟨isDigitRun_ofNat _, isDigitRun_ofNat _, isDigitRun_ofNat _, rfl⟩

/-- A printed version is a version segment without a mark. -/
theorem VersionSegment.ofText?_version (version : Version) :
    VersionSegment.ofText? version.toText =
      some ⟨Text.ofNat version.major.toNat, Text.ofNat version.minor.toNat,
        Text.ofNat version.patch.toNat, .exact⟩ := by
  have h := VersionSegment.ofText?_toText version .exact
  rwa [Direction.mark, List.append_nil] at h

/-- Version segments name directories. -/
theorem isName_of_isVersionSegment {segment : Text} (h : isVersionSegment segment = true) :
    IsName segment := by
  obtain ⟨parts, hparts⟩ := Option.isSome_iff_exists.1 h
  obtain ⟨hmajor, hminor, hpatch, rfl⟩ := VersionSegment.ofText?_eq_some_iff.1 hparts
  rcases hrun : parts.major with _ | ⟨c, digits⟩
  · exact absurd hrun (ne_nil_of_isDigitRun hmajor)
  · -- it starts with a digit, so it is no step up
    have hdigit : c ≠ '.' := by
      rintro rfl
      exact absurd (isDecimalDigit_of_mem hmajor '.' (by simp [hrun])) (by decide)
    have hslash : isDecimalDigit '/' = false := by decide
    have hmark : '/' ∉ parts.direction.mark := by cases parts.direction <;> decide
    refine ⟨by simp, by simp [hdigit], by simp [hdigit], ?_⟩
    have h1 := not_mem_of_isDigitRun hmajor hslash
    have h2 := not_mem_of_isDigitRun hminor hslash
    have h3 := not_mem_of_isDigitRun hpatch hslash
    rw [hrun] at h1
    simp_all

/-- What is behind the last of a character is the same for equal texts. -/
theorem eq_of_append_cons_eq {before other after rest : Text} {c : Char} (h : c ∉ after)
    (h' : c ∉ rest) (heq : before ++ c :: after = other ++ c :: rest) : after = rest := by
  have hreverse : after.reverse ++ c :: before.reverse = rest.reverse ++ c :: other.reverse := by
    simpa using congrArg List.reverse heq
  have hsplit := congrArg (List.splitOn c) hreverse
  rw [List.splitOn_append_cons_self_of_not_mem (by simpa using h),
    List.splitOn_append_cons_self_of_not_mem (by simpa using h')] at hsplit
  exact List.reverse_injective (List.cons.inj hsplit).1

/-- An ASCII letter is no digit. -/
theorem isDecimalDigit_of_isAlpha {c : Char} (h : c.isAlpha = true) : isDecimalDigit c = false := by
  have hletter := toNat_of_isAlpha h
  have hdigit : c.isDigit = false := by
    rw [Bool.eq_false_iff]
    intro hdigit
    simp only [Char.isDigit, Bool.and_eq_true, decide_eq_true_eq] at hdigit
    have hhigh : c.val.toNat ≤ 57 := UInt32.le_iff_toNat_le.1 hdigit.2
    exact absurd (Nat.le_trans hletter.1 hhigh) (by decide)
  rw [isDecimalDigit, if_pos (by omega), hdigit]

/-- What has an extension is no version. -/
theorem isVersionSegment_of_hasExtension {segment : Text} (h : hasExtension segment = true) :
    isVersionSegment segment = false := by
  rw [Bool.eq_false_iff]
  intro hversion
  obtain ⟨parts, hparts⟩ := Option.isSome_iff_exists.1 hversion
  obtain ⟨-, -, hpatch, rfl⟩ := VersionSegment.ofText?_eq_some_iff.1 hparts
  obtain ⟨stem, name, heq, hname⟩ := hasExtension_iff.1 h
  have hmark : '.' ∉ parts.direction.mark := by cases parts.direction <;> decide
  have hfinal : '.' ∉ parts.patch ++ parts.direction.mark := by
    rw [List.mem_append, not_or]
    exact ⟨not_mem_of_isDigitRun hpatch (by decide), hmark⟩
  rw [List.append_assoc _ _ parts.direction.mark, List.cons_append] at heq
  -- the extension would be the last number, which starts with a digit
  obtain rfl := eq_of_append_cons_eq hfinal (not_mem_extension hname (by decide)) heq
  rcases hrun : parts.patch with _ | ⟨c, digits⟩
  · exact ne_nil_of_isDigitRun hpatch hrun
  · have hdigit := isDecimalDigit_of_mem hpatch c (by simp [hrun])
    rw [hrun, List.cons_append, isExtensionName, Bool.and_eq_true] at hname
    rw [isDecimalDigit_of_isAlpha hname.1] at hdigit
    exact Bool.noConfusion hdigit

/-- A version segment that names exactly one version. -/
def isExactSegment (segment : Text) : Bool :=
  (VersionSegment.ofText? segment).any (·.direction == .exact)

/-- A version segment with a range mark at its end. -/
def isRangedSegment (segment : Text) : Bool :=
  (VersionSegment.ofText? segment).any (·.direction != .exact)

/-- A ranged segment is a version segment. -/
theorem isVersionSegment_of_isRangedSegment {segment : Text} (h : isRangedSegment segment = true) :
    isVersionSegment segment = true := by
  obtain ⟨hparts, -⟩ := (Option.any_eq_true_iff_get _ _).1 h
  exact hparts

/-- A printed version names exactly one version. -/
theorem isExactSegment_toText (version : Version) : isExactSegment version.toText = true := by
  rw [isExactSegment, VersionSegment.ofText?_version]
  rfl

/-- A printed version has no mark. -/
theorem isRangedSegment_toText (version : Version) : isRangedSegment version.toText = false := by
  rw [isRangedSegment, VersionSegment.ofText?_version]
  rfl

/-- A printed version is a version segment. -/
theorem isVersionSegment_toText (version : Version) : isVersionSegment version.toText = true := by
  rw [isVersionSegment, VersionSegment.ofText?_version]
  rfl

/-! ## Splitting -/

/-- The pieces are divided at the first version segment among them, where the very first piece does
not count. -/
structure SplitsAt (pieces before : List Text) (segment : Text) (after : List Text) : Prop where
  eq : pieces = before ++ segment :: after
  before_ne_nil : before ≠ []
  isVersion : isVersionSegment segment = true
  first : ∀ other ∈ before.tail, isVersionSegment other = false

/-- What is found is this division. -/
theorem splitAtVersion?_eq_some_iff {pieces before after : List Text} {segment : Text} :
    splitAtVersion? pieces = some (before, segment, after) ↔
      SplitsAt pieces before segment after := by
  constructor
  · intro h
    unfold splitAtVersion? at h
    split at h
    · simp at h
    · rename_i first rest
      split at h
      · simp at h
      · rename_i found behind hdrop
        simp only [Option.some.injEq, Prod.mk.injEq] at h
        obtain ⟨rfl, rfl, rfl⟩ := h
        have hfound := List.head?_dropWhile_not (!isVersionSegment ·) rest
        rw [hdrop] at hfound
        refine ⟨?_, by simp, by simpa using hfound, fun other hmem => ?_⟩
        · rw [← hdrop, List.cons_append, List.takeWhile_append_dropWhile]
        · simpa using List.mem_takeWhile_imp hmem
  · rintro ⟨rfl, hbefore, hversion, hfirst⟩
    rcases before with _ | ⟨first, inner⟩
    · exact absurd rfl hbefore
    · have hinner : ∀ other ∈ inner, (!isVersionSegment other) = true := by
        intro other hmem
        rw [hfirst other hmem]
        rfl
      rw [List.cons_append, splitAtVersion?, List.dropWhile_append_of_pos hinner,
        List.takeWhile_append_of_pos hinner]
      simp [hversion]

/-- Nothing is found when no piece behind the first is a version segment. -/
theorem splitAtVersion?_eq_none_iff {pieces : List Text} :
    splitAtVersion? pieces = none ↔ ∀ segment ∈ pieces.tail, isVersionSegment segment = false := by
  rcases pieces with _ | ⟨first, rest⟩
  · simp [splitAtVersion?]
  · have hdrop : rest.dropWhile (!isVersionSegment ·) = [] ↔
        ∀ segment ∈ rest, isVersionSegment segment = false := by
      rw [List.dropWhile_eq_nil_iff]
      simp
    rw [splitAtVersion?, List.tail_cons, ← hdrop]
    split <;> simp_all

namespace VersionedPath

/-- A pathname is versioned when a version with a slash behind it is the first, and no line breaks
in it. -/
theorem parse_eq_some_iff {pathname : Text} {path : VersionedPath} :
    parse pathname = .ok (some path) ↔
      '\n' ∉ pathname ∧ ∃ before segment after, SplitsAt (segments pathname) before segment after ∧
        after ≠ [] ∧ Constraint.ofText? segment = some path.constraint ∧
        path.package = ofSegments before ∧ path.inner = ofSegments after := by
  constructor
  · intro h
    unfold parse at h
    split at h
    · simp at h
    · rename_i hline
      refine ⟨hline, ?_⟩
      split at h
      · simp at h
      · simp at h
      · rename_i before segment after hne hsplit
        -- a constraint that is refused would have been the answer
        rcases hparse : Constraint.parse segment with error | constraint
        · simp [hparse, bind, Except.bind] at h
        · rw [hparse] at h
          obtain rfl := Option.some.inj (Except.ok.inj h)
          refine ⟨before, segment, after, splitAtVersion?_eq_some_iff.1 hsplit, ?_,
            Constraint.parse_eq_ok_iff.1 hparse, rfl, rfl⟩
          rintro rfl
          exact hne rfl
  · rintro ⟨hline, before, segment, after, hsplit, hafter, hconstraint, hpackage, hinner⟩
    rw [parse, if_neg hline, splitAtVersion?_eq_some_iff.2 hsplit]
    rcases after with _ | ⟨next, rest⟩
    · exact absurd rfl hafter
    · simp only [Constraint.parse_eq_ok_iff.2 hconstraint, ← hpackage, ← hinner]
      rfl

/-- A pathname is not versioned when a line breaks in it, when no segment is a version, or when the
first version has no slash behind it. -/
theorem parse_eq_none_iff {pathname : Text} :
    parse pathname = .ok none ↔
      '\n' ∈ pathname ∨ (∀ segment ∈ (segments pathname).tail, isVersionSegment segment = false) ∨
        ∃ before segment, SplitsAt (segments pathname) before segment [] := by
  rw [← splitAtVersion?_eq_none_iff]
  simp only [← splitAtVersion?_eq_some_iff]
  unfold parse
  split
  · simp [*]
  · split
    · simp [*]
    · rename_i before segment hsplit
      simp [*]
    · rename_i before segment after hafter hsplit
      rcases Constraint.parse segment with error | constraint <;>
        simp_all [bind, Except.bind, pure, Except.pure]

/-- Pinning a normal path puts the version in the place of one of its names, which is the first
version among them. -/
theorem rooted_pinned {reference last : Text} {names : List Text} {path : VersionedPath}
    (h : Rooted reference names last) (hparse : parse reference = .ok (some path)) :
    ∃ ahead segment behind, names = ahead ++ segment :: behind ∧
      Constraint.ofText? segment = some path.constraint ∧
      (∀ name ∈ ahead, isVersionSegment name = false) ∧
      ∀ version, Rooted (path.pinned version) (ahead ++ version.toText :: behind) last := by
  obtain ⟨-, before, segment, after, hsplit, hafter, hconstraint, hpackage, hinner⟩ :=
    parse_eq_some_iff.1 hparse
  obtain ⟨first, ahead, rfl⟩ := List.exists_cons_of_ne_nil hsplit.before_ne_nil
  obtain ⟨behind, final, rfl⟩ := (List.eq_nil_or_concat' after).resolve_left hafter
  have hpieces : [] :: names ++ [last] = first :: (ahead ++ segment :: behind) ++ [final] := by
    rw [← segments_of_rooted h, hsplit.eq]
    simp
  -- the pieces of the path are compared from both ends: the root, the names and the last segment
  obtain ⟨hfront, hlast⟩ := List.append_inj' hpieces rfl
  obtain ⟨rfl, rfl⟩ := List.cons.inj hfront
  obtain rfl := (List.cons.inj hlast).1
  refine ⟨ahead, segment, behind, rfl, hconstraint, hsplit.first, fun version => ?_⟩
  refine ⟨?_, h.last_isName, ?_⟩
  · intro name hmem
    rcases List.mem_append.1 hmem with hahead | hmem
    · exact h.isName name (List.mem_append_left _ hahead)
    · rcases List.mem_cons.1 hmem with rfl | hbehind
      · exact isName_of_isVersionSegment (isVersionSegment_toText version)
      · exact h.isName name (by simp [hbehind])
  · have hpinned : path.pinned version =
        ofSegments (([] :: ahead) ++ version.toText :: (behind ++ [last])) := by
      rw [pinned, hpackage, hinner, ofSegments_append_cons hsplit.before_ne_nil hafter]
    rw [hpinned, ← ofSegments_directoryAt]
    simp

end VersionedPath

end ModuleCompiler
