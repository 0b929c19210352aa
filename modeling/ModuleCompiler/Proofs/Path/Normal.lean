import Mathlib.Data.List.Basic
import Mathlib.Data.List.Induction
import ModuleCompiler.Path.Basic

/-!
# Normal paths

A path that starts at the root is in normal form when it leads through named directories to a named
file, or to a directory. `Path.normalize` brings every absolute path into this form and changes none
that has it.

A path is its segments, so the proofs work on these: `Rooted` relates a normal path to the names on
its way (`IsName`) and to its last segment, which is empty for a directory. What normalizing makes
of any path is `normalize_eq_framed`, the collapsed segments with the slashes around them; from it
come `rooted_normalize`, for an absolute path whose last segment survives, and
`normalize_of_rooted`, by which a normal path stays as it is.
-/

namespace ModuleCompiler.Path

/-! ## Segments -/

/-- What is cut at a character does not have it. -/
theorem not_mem_of_mem_splitOn {separator : Char} {text piece : Text}
    (h : piece ∈ text.splitOn separator) : separator ∉ piece := by
  induction text generalizing piece with
  | nil =>
    obtain rfl : piece = [] := by simpa using h
    exact List.not_mem_nil
  | cons c rest ih =>
    rw [List.splitOn_cons_eq_if_modifyHead] at h
    split at h
    · rcases List.mem_cons.1 h with rfl | hrest
      · exact List.not_mem_nil
      · exact ih hrest
    · -- the character belongs to the first piece of the rest
      rename_i hne
      rcases hsplit : rest.splitOn separator with _ | ⟨first, others⟩
      · exact absurd hsplit (List.splitOn_ne_nil _ _)
      · rw [hsplit, List.modifyHead_cons] at h
        rw [hsplit] at ih
        rcases List.mem_cons.1 h with rfl | hrest
        · rw [List.mem_cons, not_or]
          exact ⟨fun heq => hne (by simp [heq]), ih List.mem_cons_self⟩
        · exact ih (List.mem_cons_of_mem _ hrest)

/-- Every path has a segment, if only an empty one. -/
theorem segments_ne_nil (path : Text) : segments path ≠ [] :=
  List.splitOn_ne_nil '/' path

/-- Segments have no slash. -/
theorem slash_not_mem_of_mem_segments {path segment : Text} (h : segment ∈ segments path) :
    '/' ∉ segment :=
  not_mem_of_mem_splitOn h

/-- What stands before the first slash is the first segment. -/
theorem segments_append_slash {before : Text} (h : '/' ∉ before) (after : Text) :
    segments (before ++ '/' :: after) = before :: segments after :=
  List.splitOn_append_cons_self_of_not_mem h after

/-- A slash at the start has an empty segment before it. -/
theorem segments_slash_cons (rest : Text) : segments ('/' :: rest) = [] :: segments rest :=
  segments_append_slash List.not_mem_nil rest

/-- At any slash the segments of a path fall into those before it and those behind it. -/
theorem segments_append_slash' (before after : Text) :
    segments (before ++ '/' :: after) = segments before ++ segments after :=
  List.splitOn_append_cons_self before after

/-- Pieces in two parts make two paths with a slash between them. -/
theorem ofSegments_append {before after : List Text} (h : before ≠ []) (h' : after ≠ []) :
    ofSegments (before ++ after) = ofSegments before ++ '/' :: ofSegments after := by
  induction before with
  | nil => exact absurd rfl h
  | cons segment rest ih =>
    simp only [ofSegments, Text.joined] at ih ⊢
    rcases eq_or_ne rest [] with rfl | hrest
    · rw [List.singleton_append, List.intercalate_cons_of_ne_nil h', List.intercalate_singleton]
      simp
    · rw [List.cons_append, List.intercalate_cons_of_ne_nil (by simp [hrest]), ih hrest,
        List.intercalate_cons_of_ne_nil hrest]
      simp

/-- One piece is a path without a slash. -/
@[simp] theorem ofSegments_singleton (segment : Text) : ofSegments [segment] = segment := by
  rw [ofSegments, Text.joined, List.intercalate_singleton]

/-- The first of some pieces stands before the first slash. -/
theorem ofSegments_cons (segment : Text) {rest : List Text} (h : rest ≠ []) :
    ofSegments (segment :: rest) = segment ++ '/' :: ofSegments rest := by
  rw [← List.singleton_append, ofSegments_append (List.cons_ne_nil segment []) h,
    ofSegments_singleton]

/-- The last of some pieces stands behind the last slash. -/
theorem ofSegments_concat {front : List Text} (h : front ≠ []) (last : Text) :
    ofSegments (front ++ [last]) = ofSegments front ++ '/' :: last := by
  rw [ofSegments_append h (List.cons_ne_nil last []), ofSegments_singleton]

/-- A piece among others stands between two slashes. -/
theorem ofSegments_append_cons {before after : List Text} {segment : Text} (h : before ≠ [])
    (h' : after ≠ []) :
    ofSegments (before ++ segment :: after) =
      ofSegments before ++ '/' :: segment ++ '/' :: ofSegments after := by
  rw [ofSegments_append h (List.cons_ne_nil segment after), ofSegments_cons segment h']
  simp

/-- A path without a slash is one segment. -/
theorem segments_of_not_mem {path : Text} (h : '/' ∉ path) : segments path = [path] :=
  List.splitOn_eq_singleton h

/-- The segments of a path made of pieces without slashes. -/
theorem segments_ofSegments {pieces : List Text} (hne : pieces ≠ [])
    (h : ∀ piece ∈ pieces, '/' ∉ piece) : segments (ofSegments pieces) = pieces :=
  List.splitOn_intercalate '/' h hne

/-- What is appended to the last piece is appended to the path. -/
theorem ofSegments_concat_append (front : List Text) (last text : Text) :
    ofSegments (front ++ [last ++ text]) = ofSegments (front ++ [last]) ++ text := by
  rcases eq_or_ne front [] with rfl | hfront
  · simp
  · rw [ofSegments_concat hfront, ofSegments_concat hfront]
    simp

/-- What is appended to a path belongs to its last segment, if it has no slash. -/
theorem segments_append_of_not_mem {path last text : Text} {front : List Text}
    (hsegments : segments path = front ++ [last]) (h : '/' ∉ text) :
    segments (path ++ text) = front ++ [last ++ text] := by
  have hpieces : ∀ piece ∈ front ++ [last], '/' ∉ piece := by
    rw [← hsegments]
    exact fun _ => slash_not_mem_of_mem_segments
  rw [← ofSegments_segments path, hsegments, ← ofSegments_concat_append,
    segments_ofSegments (by simp)]
  intro piece hmem
  rcases List.mem_append.1 hmem with hmem | hmem
  · exact hpieces piece (List.mem_append_left _ hmem)
  · rw [List.mem_singleton.1 hmem, List.mem_append, not_or]
    exact ⟨hpieces last (by simp), h⟩

/-- A character that is no slash stands in a path where it stands in one of the pieces. -/
theorem mem_ofSegments_iff {pieces : List Text} {c : Char} (hc : c ≠ '/') :
    c ∈ ofSegments pieces ↔ ∃ piece ∈ pieces, c ∈ piece := by
  induction pieces with
  | nil => simp [ofSegments, Text.joined]
  | cons piece rest ih =>
    rcases eq_or_ne rest [] with rfl | hne
    · simp
    · rw [ofSegments_cons piece hne, List.mem_append, List.mem_cons, ih]
      simp [hc]

/-- A path has no characters but slashes and those of its segments. -/
theorem not_mem_of_not_mem_segments {path : Text} {c : Char} (hc : c ≠ '/')
    (h : ∀ segment ∈ segments path, c ∉ segment) : c ∉ path := by
  rw [← ofSegments_segments path, mem_ofSegments_iff hc]
  rintro ⟨segment, hmem, hmem'⟩
  exact h segment hmem hmem'

/-- An absolute path starts with a slash. -/
theorem exists_of_isAbsolute {path : Text} (h : isAbsolute path = true) :
    ∃ rest, path = '/' :: rest := by
  simpa [isAbsolute, List.head?_eq_some_iff] using h

/-- A path that starts at the root does so whatever follows. -/
theorem isAbsolute_append {path : Text} (h : isAbsolute path = true) (rest : Text) :
    isAbsolute (path ++ rest) = true := by
  obtain ⟨inner, rfl⟩ := exists_of_isAbsolute h
  rfl

/-- An absolute path has nothing before its first slash. -/
theorem isAbsolute_iff {path : Text} :
    isAbsolute path = true ↔ ∃ rest, rest ≠ [] ∧ segments path = [] :: rest := by
  constructor
  · intro h
    obtain ⟨inner, rfl⟩ := exists_of_isAbsolute h
    exact ⟨segments inner, List.splitOn_ne_nil '/' inner, segments_slash_cons inner⟩
  · rintro ⟨rest, hne, hsegments⟩
    rw [← ofSegments_segments path, hsegments, ofSegments_cons [] hne]
    rfl

/-- The directory of a path ends at its last slash. -/
theorem directory_append_slash (before : Text) {after : Text} (h : '/' ∉ after) :
    directory (before ++ '/' :: after) = before ++ ['/'] := by
  have hall : ∀ c ∈ after.reverse, (c != '/') = true := by
    intro c hmem
    rw [bne_iff_ne]
    rintro rfl
    exact h (List.mem_reverse.1 hmem)
  have hreverse : (before ++ '/' :: after).reverse = after.reverse ++ '/' :: before.reverse := by
    simp
  rw [directory, hreverse, List.dropWhile_append_of_pos hall]
  simp

/-! ## Names -/

/-- The segment names a file or a directory. -/
structure IsName (segment : Text) : Prop where
  nonempty : segment ≠ []
  ne_dot : segment ≠ ['.']
  ne_dots : segment ≠ ['.', '.']
  slash_not_mem : '/' ∉ segment

instance (segment : Text) : Decidable (IsName segment) :=
  decidable_of_iff (segment ≠ [] ∧ segment ≠ ['.'] ∧ segment ≠ ['.', '.'] ∧ '/' ∉ segment)
    ⟨fun ⟨hne, hdot, hdots, hslash⟩ => ⟨hne, hdot, hdots, hslash⟩,
      fun h => ⟨h.nonempty, h.ne_dot, h.ne_dots, h.slash_not_mem⟩⟩

/-- The directory that some names lead to from the root. -/
def directoryAt (names : List Text) : Text :=
  '/' :: names.flatMap (· ++ ['/'])

/-- No names lead to the root. -/
@[simp] theorem directoryAt_nil : directoryAt [] = ['/'] := rfl

/-- A further name leads one directory down. -/
theorem directoryAt_concat (names : List Text) (name : Text) :
    directoryAt (names ++ [name]) = directoryAt names ++ name ++ ['/'] := by
  simp [directoryAt]

/-- Directories are written with a slash at the end. -/
theorem exists_directoryAt_eq (names : List Text) : ∃ text, directoryAt names = text ++ ['/'] := by
  induction names using List.reverseRecOn with
  | nil => exact ⟨[], rfl⟩
  | append_singleton names name _ => exact ⟨_, directoryAt_concat names name⟩

/-- The way to a directory starts at the root. -/
theorem isAbsolute_directoryAt (names : List Text) (last : Text) :
    isAbsolute (directoryAt names ++ last) = true := rfl

/-- The names of the directories, and the last segment, are the segments of the path. -/
theorem ofSegments_directoryAt (names : List Text) (last : Text) :
    ofSegments ([] :: names ++ [last]) = directoryAt names ++ last := by
  rw [ofSegments_concat (by simp)]
  induction names using List.reverseRecOn generalizing last with
  | nil => rfl
  | append_singleton names name ih =>
    rw [← List.cons_append, ofSegments_concat (by simp), ih, directoryAt_concat]
    simp

/-- The path is in normal form: it leads through the directories of some names to a file, or to the
last of the directories when nothing is left. -/
structure Rooted (path : Text) (names : List Text) (last : Text) : Prop where
  isName : ∀ name ∈ names, IsName name
  last_isName : last ≠ [] → IsName last
  eq : path = directoryAt names ++ last

variable {path last : Text} {names : List Text}

/-- The last segment of a normal path has no slash. -/
theorem Rooted.slash_not_mem (h : Rooted path names last) : '/' ∉ last := by
  by_cases hlast : last = []
  · rw [hlast]
    exact List.not_mem_nil
  · exact (h.last_isName hlast).slash_not_mem

/-- The segments of a normal path are the empty one before the root, its names, and the last. -/
theorem segments_of_rooted (h : Rooted path names last) :
    segments path = [] :: names ++ [last] := by
  rw [h.eq, ← ofSegments_directoryAt]
  refine List.splitOn_intercalate '/' ?_ (by simp)
  intro segment hmem
  simp only [List.cons_append, List.mem_cons, List.mem_append, List.not_mem_nil, or_false] at hmem
  rcases hmem with rfl | hname | rfl
  · exact List.not_mem_nil
  · exact (h.isName segment hname).slash_not_mem
  · exact h.slash_not_mem

/-- A slash in a normal path ends a directory, which some of the names lead to. -/
theorem Rooted.split {before after : Text} (h : Rooted (before ++ '/' :: after) names last) :
    ∃ above below, names = above ++ below ∧ Rooted (before ++ ['/']) above [] ∧
      segments after = below ++ [last] := by
  obtain ⟨first, above, hbefore⟩ := List.exists_cons_of_ne_nil (segments_ne_nil before)
  obtain ⟨below, final, hafter⟩ :=
    (List.eq_nil_or_concat' (segments after)).resolve_left (segments_ne_nil after)
  have hsegments : first :: (above ++ below) ++ [final] = [] :: names ++ [last] := by
    rw [← segments_of_rooted h, segments_append_slash', hbefore, hafter]
    simp
  obtain ⟨hnames, hfinal⟩ := List.append_inj' hsegments rfl
  obtain ⟨rfl, rfl⟩ := List.cons.inj hnames
  obtain ⟨rfl, -⟩ := List.cons.inj hfinal
  refine ⟨above, below, rfl, ⟨fun name hmem => h.isName name (List.mem_append_left _ hmem),
    fun hne => absurd rfl hne, ?_⟩, hafter⟩
  rw [← ofSegments_directoryAt, ← hbefore, ofSegments_concat (segments_ne_nil before),
    ofSegments_segments]

/-! ## Collapsing -/

/-- A name is kept. -/
theorem collapseStep_of_isName {segment : Text} (h : IsName segment) (absolute : Bool)
    (kept : List Text) : collapseStep absolute kept segment = segment :: kept := by
  unfold collapseStep
  rw [if_neg (not_or_intro h.nonempty h.ne_dot), if_neg h.ne_dots]

/-- An empty segment is left out. -/
@[simp] theorem collapseStep_nil (absolute : Bool) (kept : List Text) :
    collapseStep absolute kept [] = kept := by
  simp [collapseStep]

/-- From the root, a step keeps names only: it never keeps a `..`. -/
theorem isName_of_mem_collapseStep {kept : List Text} {segment : Text}
    (h : ∀ name ∈ kept, IsName name) (hsegment : '/' ∉ segment) :
    ∀ name ∈ collapseStep true kept segment, IsName name := by
  intro name hmem
  unfold collapseStep at hmem
  split at hmem
  · exact h name hmem
  · rename_i hblank
    split at hmem
    · rcases kept with _ | ⟨last, before⟩
      · simp at hmem
      · have hlast : last ≠ ['.', '.'] := (h last List.mem_cons_self).ne_dots
        simp only [if_neg hlast] at hmem
        exact h name (List.mem_cons_of_mem _ hmem)
    · rename_i hdots
      rcases List.mem_cons.1 hmem with rfl | hkept
      · exact ⟨fun heq => hblank (.inl heq), fun heq => hblank (.inr heq), hdots, hsegment⟩
      · exact h name hkept

/-- What is left after collapsing from the root are names. -/
theorem isName_of_mem_collapse {pieces : List Text} (h : ∀ piece ∈ pieces, '/' ∉ piece) :
    ∀ name ∈ collapse true pieces, IsName name := by
  -- over the pieces, from any names that are kept already
  have hfold : ∀ pieces : List Text, (∀ piece ∈ pieces, '/' ∉ piece) → ∀ kept : List Text,
      (∀ name ∈ kept, IsName name) →
        ∀ name ∈ pieces.foldl (collapseStep true) kept, IsName name := by
    intro pieces
    induction pieces with
    | nil => exact fun _ kept hkept => hkept
    | cons piece rest ih =>
      intro hpieces kept hkept
      obtain ⟨hpiece, hrest⟩ := List.forall_mem_cons.1 hpieces
      exact ih hrest _ (isName_of_mem_collapseStep hkept hpiece)
  intro name hmem
  exact hfold pieces h [] (by simp) name (List.mem_reverse.1 hmem)

/-- The last segment is the last step. -/
theorem collapse_concat (absolute : Bool) (pieces : List Text) (piece : Text) :
    collapse absolute (pieces ++ [piece]) =
      (collapseStep absolute (collapse absolute pieces).reverse piece).reverse := by
  simp [collapse, List.foldl_append]

/-- A step keeps no empty segment. -/
theorem mem_of_mem_collapseStep {absolute : Bool} {kept : List Text} {segment piece : Text}
    (h : piece ∈ collapseStep absolute kept segment) :
    piece = segment ∧ piece ≠ [] ∨ piece ∈ kept := by
  unfold collapseStep at h
  by_cases hblank : segment = [] ∨ segment = ['.']
  · rw [if_pos hblank] at h
    exact .inr h
  · have hkept : piece ∈ segment :: kept → piece = segment ∧ piece ≠ [] ∨ piece ∈ kept := by
      intro hmem
      rcases List.mem_cons.1 hmem with rfl | hmem
      · exact .inl ⟨rfl, fun hnil => hblank (.inl hnil)⟩
      · exact .inr hmem
    rw [if_neg hblank] at h
    by_cases hdots : segment = ['.', '.']
    · rw [if_pos hdots] at h
      -- a step up is kept itself, or takes back the segment before it
      rcases kept with _ | ⟨last, before⟩
      · cases absolute with
        | true => simp at h
        | false => exact hkept h
      · by_cases hlast : last = ['.', '.']
        · simp only [if_pos hlast] at h
          cases absolute with
          | true => exact .inr h
          | false => exact hkept h
        · simp only [if_neg hlast] at h
          exact .inr (List.mem_cons_of_mem _ h)
    · rw [if_neg hdots] at h
      exact hkept h

/-- What is left after collapsing was there before, and is not empty. -/
theorem mem_of_mem_collapse {absolute : Bool} {pieces : List Text} {piece : Text}
    (h : piece ∈ collapse absolute pieces) : piece ∈ pieces ∧ piece ≠ [] := by
  induction pieces using List.reverseRecOn with
  | nil => simp [collapse] at h
  | append_singleton pieces other ih =>
    rw [collapse_concat, List.mem_reverse] at h
    rcases mem_of_mem_collapseStep h with ⟨rfl, hne⟩ | hmem
    · exact ⟨by simp, hne⟩
    · obtain ⟨hmem, hne⟩ := ih (List.mem_reverse.1 hmem)
      exact ⟨List.mem_append_left _ hmem, hne⟩

/-- A name at the end is kept. -/
theorem collapse_concat_of_isName {piece : Text} (h : IsName piece) (absolute : Bool)
    (pieces : List Text) :
    collapse absolute (pieces ++ [piece]) = collapse absolute pieces ++ [piece] := by
  rw [collapse_concat, collapseStep_of_isName h, List.reverse_cons, List.reverse_reverse]

/-- A slash at the end adds nothing to the collapsed segments. -/
theorem collapse_concat_nil (absolute : Bool) (pieces : List Text) :
    collapse absolute (pieces ++ [[]]) = collapse absolute pieces := by
  rw [collapse_concat, collapseStep_nil, List.reverse_reverse]

/-- Where no segment goes up, collapsing only leaves out the empty ones. -/
theorem collapse_eq_filter {pieces : List Text} (h : ∀ piece ∈ pieces, piece ≠ [] → IsName piece)
    (absolute : Bool) : collapse absolute pieces = pieces.filter (· ≠ []) := by
  induction pieces using List.reverseRecOn with
  | nil => rfl
  | append_singleton pieces piece ih =>
    have hbefore := ih fun other hmem => h other (List.mem_append_left _ hmem)
    by_cases hpiece : piece = []
    · rw [hpiece, collapse_concat_nil, hbefore]
      simp
    · rw [collapse_concat_of_isName (h piece (by simp) hpiece), hbefore]
      simp [hpiece]

/-- Names are not collapsed. -/
theorem collapse_of_isName {names : List Text} (h : ∀ name ∈ names, IsName name)
    (absolute : Bool) : collapse absolute ([] :: names) = names := by
  have hfilter : names.filter (· ≠ []) = names :=
    List.filter_eq_self.2 fun name hmem => by simpa using (h name hmem).nonempty
  rw [collapse_eq_filter, List.filter_cons_of_neg (by simp), hfilter]
  rintro piece hmem hne
  exact h piece ((List.mem_cons.1 hmem).resolve_left hne)

/-! ## Normalizing -/

/-- A path from the root leads through its directories to its last segment. -/
theorem slash_cons_ofSegments_concat (names : List Text) (name : Text) :
    '/' :: ofSegments (names ++ [name]) = directoryAt names ++ name := by
  rw [← ofSegments_directoryAt, List.cons_append, ofSegments, ofSegments, Text.joined, Text.joined,
    List.intercalate_cons_of_ne_nil (by simp)]
  rfl

/-- A path with a name at its end is not empty. -/
theorem ofSegments_concat_ne_nil (names : List Text) {name : Text} (h : name ≠ []) :
    ofSegments (names ++ [name]) ≠ [] := by
  intro hnil
  have hlength := congrArg List.length (slash_cons_ofSegments_concat names name)
  have hname := List.length_pos_iff.2 h
  rw [hnil, directoryAt] at hlength
  simp only [List.length_append, List.length_cons, List.length_nil] at hlength
  omega

/-- Pieces that are not empty make an empty path only if there are none. -/
theorem ofSegments_eq_nil_iff {pieces : List Text} (h : ∀ piece ∈ pieces, piece ≠ []) :
    ofSegments pieces = [] ↔ pieces = [] := by
  refine ⟨fun hnil => ?_, fun hnil => by rw [hnil]; rfl⟩
  by_contra hne
  obtain ⟨front, last, rfl⟩ := (List.eq_nil_or_concat' pieces).resolve_left hne
  exact ofSegments_concat_ne_nil front (h last (by simp)) hnil

/-- The path of some segments, from the root or not, and with a slash behind the last of them or
not. -/
def framed (absolute trailing : Bool) (pieces : List Text) : Text :=
  (if absolute then ['/'] else []) ++ ofSegments pieces ++
    (if trailing ∧ pieces ≠ [] then ['/'] else [])

/-- Without segments a slash is left at the start, and none at the end. -/
@[simp] theorem framed_nil (absolute trailing : Bool) :
    framed absolute trailing [] = if absolute then ['/'] else [] := by
  simp [framed, ofSegments, Text.joined]

/-- A normal form is made of the collapsed segments, whether the path starts at the root or not. -/
theorem normalize_eq_framed (path : Text) :
    normalize path =
      framed (isAbsolute path) (endsInSlash path) (collapse (isAbsolute path) (segments path)) := by
  have hbody : ofSegments (collapse (isAbsolute path) (segments path)) = [] ↔
      collapse (isAbsolute path) (segments path) = [] :=
    ofSegments_eq_nil_iff fun _ hmem => (mem_of_mem_collapse hmem).2
  -- of a slash alone nothing is left, so the length of the path does not matter
  have hlength : endsInSlash path = true → collapse (isAbsolute path) (segments path) ≠ [] →
      path.length ≠ 1 := by
    intro hends hne hone
    obtain ⟨c, rfl⟩ := List.length_eq_one_iff.1 hone
    obtain rfl : c = '/' := by simpa [endsInSlash] using hends
    exact hne rfl
  have htrailing : (endsInSlash path && path.length != 1 &&
      !(ofSegments (collapse (isAbsolute path) (segments path))).isEmpty) = true ↔
        endsInSlash path = true ∧ collapse (isAbsolute path) (segments path) ≠ [] := by
    simp only [Bool.and_eq_true, bne_iff_ne, Bool.not_eq_true', List.isEmpty_eq_false_iff, ne_eq,
      hbody]
    exact ⟨fun h => ⟨h.1.1, h.2⟩, fun h => ⟨⟨h.1, hlength h.1 h.2⟩, h.2⟩⟩
  rw [normalize, framed]
  simp only [htrailing]

/-- A path ends in a slash when nothing follows the last one. -/
theorem endsInSlash_iff_of_segments {path last : Text} {front : List Text}
    (hsegments : segments path = front ++ [last]) :
    endsInSlash path = true ↔ front ≠ [] ∧ last = [] := by
  have hpath : path = ofSegments (front ++ [last]) := by rw [← hsegments, ofSegments_segments]
  have hslash : '/' ∉ last := slash_not_mem_of_mem_segments (by rw [hsegments]; simp)
  rw [endsInSlash, beq_iff_eq, hpath]
  rcases eq_or_ne front [] with rfl | hfront
  · rw [List.nil_append, ofSegments_singleton]
    exact ⟨fun hends => absurd (List.mem_of_getLast? hends) hslash, fun h => absurd rfl h.1⟩
  · rw [ofSegments_concat hfront, List.getLast?_append_cons]
    rcases eq_or_ne last [] with rfl | hlast
    · simp [hfront]
    · rw [List.getLast?_cons_of_ne_nil hlast]
      exact ⟨fun hends => absurd (List.mem_of_getLast? hends) hslash, fun h => absurd h.2 hlast⟩

/-- The normal form of a path whose last segment is empty or a name: that segment is kept, and with
it a slash at the end. -/
theorem normalize_of_concat {path last : Text} {front : List Text}
    (hsegments : segments path = front ++ [last]) (hlast : last ≠ [] → IsName last) :
    normalize path = (if isAbsolute path then ['/'] else []) ++
      ofSegments (collapse (isAbsolute path) front ++ [last]) := by
  rw [normalize_eq_framed, hsegments]
  by_cases hnil : last = []
  · subst hnil
    rw [collapse_concat_nil]
    rcases eq_or_ne (collapse (isAbsolute path) front) [] with hnone | hsome
    · rw [hnone, framed_nil, List.nil_append, ofSegments_singleton, List.append_nil]
    · -- a slash is left at the end, behind something that is no slash
      have hfront : front ≠ [] := by
        rintro rfl
        exact hsome rfl
      have htrailing : endsInSlash path = true ∧ collapse (isAbsolute path) front ≠ [] :=
        ⟨(endsInSlash_iff_of_segments hsegments).2 ⟨hfront, rfl⟩, hsome⟩
      rw [framed, if_pos htrailing, ofSegments_concat hsome, List.append_assoc]
  · have htrailing :
        ¬ (endsInSlash path = true ∧ collapse (isAbsolute path) front ++ [last] ≠ []) :=
      fun hall => hnil ((endsInSlash_iff_of_segments hsegments).1 hall.1).2
    rw [collapse_concat_of_isName (hlast hnil), framed, if_neg htrailing, List.append_nil]

/-- Names behind a directory make a longer normal path. -/
theorem Rooted.append {path relative last : Text} {names below : List Text}
    (h : Rooted path names []) (hbelow : ∀ name ∈ below, IsName name)
    (hlast : last ≠ [] → IsName last) (hsegments : segments relative = below ++ [last]) :
    Rooted (path ++ relative) (names ++ below) last := by
  refine ⟨fun name hmem => ?_, hlast, ?_⟩
  · rcases List.mem_append.1 hmem with hname | hname
    · exact h.isName name hname
    · exact hbelow name hname
  · have hrelative : '/' :: relative = directoryAt below ++ last := by
      rw [← slash_cons_ofSegments_concat, ← hsegments, ofSegments_segments]
    rw [directoryAt, List.cons_append] at hrelative
    rw [h.eq, List.append_nil, (List.cons.inj hrelative).2]
    simp [directoryAt]

/-- Every absolute path has a normal form. -/
theorem exists_rooted_normalize {path : Text} (h : isAbsolute path = true) :
    ∃ names last, Rooted (normalize path) names last := by
  have hnames : ∀ name ∈ collapse true (segments path), IsName name :=
    isName_of_mem_collapse fun _ => slash_not_mem_of_mem_segments
  rw [normalize_eq_framed, h]
  rcases List.eq_nil_or_concat' (collapse true (segments path)) with hnil | ⟨names, name, hconcat⟩
  · rw [hnil, framed_nil]
    exact ⟨[], [], by simp, fun hne => absurd rfl hne, rfl⟩
  · rw [hconcat] at hnames ⊢
    rw [framed, if_pos rfl, List.singleton_append, slash_cons_ofSegments_concat]
    -- with a slash at the end the last name is one more directory, otherwise it is the file
    split
    · refine ⟨names ++ [name], [], hnames, fun hne => absurd rfl hne, ?_⟩
      rw [directoryAt_concat, List.append_nil]
    · refine ⟨names, name, fun other hmem => hnames other (List.mem_append_left _ hmem),
        fun _ => hnames name (by simp), ?_⟩
      rw [List.append_nil]

/-- The segments of an absolute path are more than its last one. -/
theorem front_ne_nil_of_isAbsolute {path last : Text} {front : List Text}
    (h : isAbsolute path = true) (hsegments : segments path = front ++ [last]) : front ≠ [] := by
  rintro rfl
  obtain ⟨rest, rfl⟩ := exists_of_isAbsolute h
  have hcons := segments_slash_cons rest
  rw [hsegments] at hcons
  exact List.splitOn_ne_nil '/' rest (List.cons.inj hcons).2.symm

/-- The last segment of an absolute path survives if it is a name, and so does a last slash. -/
theorem rooted_normalize {path last : Text} {front : List Text} (h : isAbsolute path = true)
    (hsegments : segments path = front ++ [last]) (hlast : last ≠ [] → IsName last) :
    Rooted (normalize path) (collapse true front) last := by
  have hpieces : ∀ piece ∈ front, '/' ∉ piece := by
    intro piece hmem
    have hpiece : piece ∈ segments path := by
      rw [hsegments]
      exact List.mem_append_left _ hmem
    exact slash_not_mem_of_mem_segments hpiece
  refine ⟨isName_of_mem_collapse hpieces, hlast, ?_⟩
  rw [normalize_of_concat hsegments hlast, h, if_pos rfl, List.singleton_append,
    slash_cons_ofSegments_concat]

/-- A path in normal form stays as it is. -/
theorem normalize_of_rooted {path last : Text} {names : List Text}
    (h : Rooted path names last) : normalize path = path := by
  have habsolute : isAbsolute path = true := by
    rw [h.eq]
    rfl
  have hsegments : segments path = ([] :: names) ++ [last] := segments_of_rooted h
  rw [(rooted_normalize habsolute hsegments h.last_isName).eq, collapse_of_isName h.isName, h.eq]

/-- An absolute path that normalizing leaves alone is in normal form. -/
theorem exists_rooted_of_normalize_eq {path : Text} (h : isAbsolute path = true)
    (hnormal : normalize path = path) : ∃ names last, Rooted path names last := by
  obtain ⟨names, last, hrooted⟩ := exists_rooted_normalize h
  exact ⟨names, last, hnormal ▸ hrooted⟩

end ModuleCompiler.Path
