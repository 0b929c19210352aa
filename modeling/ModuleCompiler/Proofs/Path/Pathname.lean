import Mathlib.Data.List.TakeWhile
import ModuleCompiler.Config
import ModuleCompiler.ModuleId
import ModuleCompiler.Proofs.Path.Extension

/-!
# The pathnames of ids

A canonical id names a file below the base by a path in normal form
(`exists_rooted_toPathname`). The last segment of that path is empty, has an extension, or is the
last one of an id that keeps its path as it is: the default extension is added wherever a path is
not `EndsPlain`, and normalizing keeps a last segment that is empty or a name.
-/

namespace ModuleCompiler

namespace Path

open Unicode

/-! ## Last segments -/

/-- What follows the last slash of a path. -/
def lastSegment (path : Text) : Text :=
  (segments path).getLastD []

variable {path last : Text} {front : List Text}

/-- Nothing follows in an empty path. -/
@[simp] theorem lastSegment_nil : lastSegment [] = [] := rfl

/-- What follows the last slash is the last of the segments. -/
theorem lastSegment_of_segments (h : segments path = front ++ [last]) :
    lastSegment path = last := by
  rw [lastSegment, h, List.getLastD_concat]

/-- Every path ends in its last segment. -/
theorem segments_eq_concat (path : Text) :
    ∃ front, segments path = front ++ [lastSegment path] := by
  obtain ⟨front, last, hconcat⟩ :=
    (List.eq_nil_or_concat' (segments path)).resolve_left (List.splitOn_ne_nil '/' path)
  exact ⟨front, by rw [lastSegment_of_segments hconcat, hconcat]⟩

/-- No slash follows the last one. -/
theorem slash_not_mem_lastSegment (path : Text) : '/' ∉ lastSegment path := by
  obtain ⟨front, hconcat⟩ := segments_eq_concat path
  have hmem : lastSegment path ∈ segments path := by rw [hconcat]; simp
  exact slash_not_mem_of_mem_segments hmem

/-- A path without a slash is its own last segment. -/
theorem lastSegment_of_not_mem (h : '/' ∉ path) : lastSegment path = path := by
  have hsegments : segments path = [] ++ [path] := segments_of_not_mem h
  exact lastSegment_of_segments hsegments

/-- What stands before a slash does not matter. -/
@[simp] theorem lastSegment_append_slash (before after : Text) :
    lastSegment (before ++ '/' :: after) = lastSegment after := by
  obtain ⟨front, hconcat⟩ := segments_eq_concat after
  have hsegments : segments (before ++ '/' :: after) =
      (segments before ++ front) ++ [lastSegment after] := by
    rw [segments_append_slash', hconcat, List.append_assoc]
  exact lastSegment_of_segments hsegments

/-- The last of some pieces is the last segment, if it has no slash. -/
theorem lastSegment_ofSegments_concat (front : List Text) (h : '/' ∉ last) :
    lastSegment (ofSegments (front ++ [last])) = last := by
  rcases eq_or_ne front [] with rfl | hfront
  · rw [List.nil_append, ofSegments_singleton, lastSegment_of_not_mem h]
  · rw [ofSegments_concat hfront, lastSegment_append_slash, lastSegment_of_not_mem h]

/-- A path ends in its last segment as a text, too. -/
theorem exists_append_lastSegment (path : Text) : ∃ before, path = before ++ lastSegment path := by
  obtain ⟨front, hconcat⟩ := segments_eq_concat path
  rcases eq_or_ne front [] with rfl | hfront
  · refine ⟨[], ?_⟩
    rw [List.nil_append, ← ofSegments_singleton (lastSegment path), ← List.nil_append [_],
      ← hconcat, ofSegments_segments]
  · refine ⟨ofSegments front ++ ['/'], ?_⟩
    rw [List.append_assoc, List.singleton_append, ← ofSegments_concat hfront, ← hconcat,
      ofSegments_segments]

/-- Something stands before a slash at the end. -/
theorem exists_of_endsInSlash (h : endsInSlash path = true) : ∃ before, path = before ++ ['/'] := by
  rw [endsInSlash, beq_iff_eq, List.getLast?_eq_some_iff] at h
  exact h

/-- Nothing follows the last slash of a path that is empty or ends in it. -/
theorem lastSegment_eq_nil_iff : lastSegment path = [] ↔ path = [] ∨ endsInSlash path = true := by
  constructor
  · intro h
    obtain ⟨front, hconcat⟩ := segments_eq_concat path
    rw [h] at hconcat
    rcases eq_or_ne front [] with rfl | hfront
    · left
      rw [← ofSegments_segments path, hconcat, List.nil_append, ofSegments_singleton]
    · right
      rw [← ofSegments_segments path, hconcat, ofSegments_concat hfront, endsInSlash,
        List.getLast?_concat]
      rfl
  · rintro (rfl | hends)
    · rfl
    · obtain ⟨before, rfl⟩ := exists_of_endsInSlash hends
      exact lastSegment_append_slash before []

/-- The last segment of a normal path is the one that it leads to. -/
theorem Rooted.lastSegment_eq {names : List Text} (h : Rooted path names last) :
    lastSegment path = last :=
  lastSegment_of_segments (segments_of_rooted h)

/-- Normalizing keeps the last segment when that is empty or a name. -/
theorem lastSegment_normalize (h : lastSegment path ≠ [] → IsName (lastSegment path)) :
    lastSegment (normalize path) = lastSegment path := by
  obtain ⟨front, hconcat⟩ := segments_eq_concat path
  rw [normalize_of_concat hconcat h]
  have hbody := lastSegment_ofSegments_concat (collapse (isAbsolute path) front)
    (slash_not_mem_lastSegment path)
  split
  · rwa [← lastSegment_append_slash []] at hbody
  · exact hbody

/-- A relative path whose segments are names or empty keeps its names and its last segment. -/
theorem segments_normalize (h : isAbsolute path = false)
    (hsegments : segments path = front ++ [last])
    (hfront : ∀ piece ∈ front, piece ≠ [] → IsName piece) (hlast : last ≠ [] → IsName last) :
    segments (normalize path) = front.filter (· ≠ []) ++ [last] := by
  rw [normalize_of_concat hsegments hlast, h, if_neg Bool.false_ne_true, List.nil_append,
    collapse_eq_filter hfront, segments_ofSegments (by simp)]
  intro piece hmem
  rcases List.mem_append.1 hmem with hmem | hmem
  · obtain ⟨hmem, hne⟩ := List.mem_filter.1 hmem
    exact (hfront piece hmem (by simpa using hne)).slash_not_mem
  · rw [List.mem_singleton.1 hmem]
    exact slash_not_mem_of_mem_segments (show last ∈ segments path by rw [hsegments]; simp)

/-- A path that ends in a slash is its own directory. -/
theorem directory_of_endsInSlash (h : endsInSlash path = true) : directory path = path := by
  obtain ⟨before, rfl⟩ := exists_of_endsInSlash h
  exact directory_append_slash before List.not_mem_nil

/-- The directory of an absolute path is absolute, and the path starts with it. -/
theorem directory_of_isAbsolute (h : isAbsolute path = true) :
    isAbsolute (directory path) = true ∧ directory path <+: path := by
  obtain ⟨front, hconcat⟩ := segments_eq_concat path
  have hpath : path = ofSegments front ++ '/' :: lastSegment path := by
    rw [← ofSegments_concat (front_ne_nil_of_isAbsolute h hconcat), ← hconcat, ofSegments_segments]
  -- the directory is what stands before the last segment
  have hdirectory : directory path = ofSegments front ++ ['/'] := by
    rw [hpath]
    exact directory_append_slash _ (slash_not_mem_lastSegment path)
  rw [hdirectory]
  constructor
  · rw [hpath] at h
    rcases hfront : ofSegments front with _ | ⟨c, inner⟩
    · rfl
    · rw [hfront] at h
      exact h
  · refine ⟨lastSegment path, ?_⟩
    rw [List.append_assoc, List.singleton_append]
    exact hpath.symm

/-- The last segment is empty or has an extension. -/
def EndsPlain (path : Text) : Prop :=
  lastSegment path = [] ∨ hasExtension (lastSegment path) = true

/-- A path has the extension of its last segment. -/
theorem hasExtension_lastSegment (path : Text) :
    hasExtension (lastSegment path) = hasExtension path := by
  rw [Bool.eq_iff_iff]
  constructor
  · intro h
    obtain ⟨before, hpath⟩ := exists_append_lastSegment path
    obtain ⟨stem, name, hstem, hname⟩ := hasExtension_iff.1 h
    rw [hstem, ← List.append_assoc] at hpath
    exact hasExtension_iff.2 ⟨before ++ stem, name, hpath, hname⟩
  · intro h
    obtain ⟨front, hconcat⟩ := segments_eq_concat path
    exact hasExtension_of_segments hconcat h

/-- An extension stands in a last segment that is not empty. -/
theorem lastSegment_ne_nil_of_hasExtension (h : hasExtension path = true) :
    lastSegment path ≠ [] := by
  rw [← hasExtension_lastSegment] at h
  exact (isName_of_hasExtension (slash_not_mem_lastSegment path) h).nonempty

/-- Such a path is empty, a directory, or has an extension. -/
theorem endsPlain_iff :
    EndsPlain path ↔ path = [] ∨ endsInSlash path = true ∨ hasExtension path = true := by
  rw [EndsPlain, lastSegment_eq_nil_iff, hasExtension_lastSegment, or_assoc]

/-- A last segment of such a path is a name, if there is any. -/
theorem EndsPlain.isName (h : EndsPlain path) (hne : lastSegment path ≠ []) :
    IsName (lastSegment path) :=
  isName_of_hasExtension (slash_not_mem_lastSegment path) (h.resolve_left hne)

/-- Normalizing keeps how such a path ends. -/
theorem EndsPlain.normalize (h : EndsPlain path) : EndsPlain (normalize path) := by
  rw [EndsPlain, lastSegment_normalize h.isName]
  exact h

/-- What stands before a slash does not change how a path ends. -/
theorem EndsPlain.append_slash (h : EndsPlain path) (before : Text) :
    EndsPlain (before ++ '/' :: path) := by
  rw [EndsPlain, lastSegment_append_slash]
  exact h

/-- A path with an extension ends plainly. -/
theorem EndsPlain.of_hasExtension (h : hasExtension path = true) : EndsPlain path := by
  exact .inr ((hasExtension_lastSegment path).trans h)

/-- Such a path does not end in a character that stands in no word, a slash apart. -/
theorem EndsPlain.dropFinal?_eq_none (h : EndsPlain path) {c : Char}
    (hc : isWordCharacter c = false) (hslash : c ≠ '/') : Text.dropFinal? c path = none := by
  rw [Text.dropFinal?, if_neg]
  intro hlast
  -- the last character is a slash, or belongs to the extension
  rcases h with hnil | hextension
  · rcases lastSegment_eq_nil_iff.1 hnil with rfl | hends
    · simp at hlast
    · rw [endsInSlash, hlast] at hends
      exact hslash (by simpa using hends)
  · obtain ⟨before, hpath⟩ := exists_append_lastSegment path
    obtain ⟨stem, name, hstem, hname⟩ := hasExtension_iff.1 hextension
    have hne : name ≠ [] := by
      rintro rfl
      simp [isExtensionName] at hname
    obtain ⟨front, d, rfl⟩ := (List.eq_nil_or_concat' name).resolve_left hne
    rw [hpath, hstem, ← List.cons_append, ← List.append_assoc, ← List.append_assoc,
      List.getLast?_concat] at hlast
    obtain rfl := Option.some.inj hlast
    rw [isWordCharacter_of_mem_extension hname d (by simp)] at hc
    exact Bool.noConfusion hc

end Path

/-- Every character of a text differs from one that it does not have. -/
theorem Text.bne_of_not_mem {c : Char} {text : Text} (h : c ∉ text) :
    ∀ d ∈ text, (d != c) = true := by
  intro d hmem
  simpa using ne_of_mem_of_not_mem hmem h

namespace ModuleId

open Path

variable {config : Config} {id : Text}

/-! ## Default extensions -/

section DefaultExtension

variable {path : Text}

/-- A path that ends plainly is complete. -/
theorem withDefaultExtension_of_endsPlain (h : EndsPlain path) :
    withDefaultExtension path = path := by
  rw [endsPlain_iff] at h
  rw [withDefaultExtension, if_pos]
  simpa [or_assoc] using h

/-- Any other path is completed by the default extension. -/
theorem withDefaultExtension_of_not_endsPlain (h : ¬ EndsPlain path) :
    withDefaultExtension path = path ++ (".js" : Text) := by
  rw [endsPlain_iff] at h
  rw [withDefaultExtension, if_neg]
  simpa [or_assoc] using h

/-- The default extension is one. -/
theorem hasExtension_append_default (path : Text) : hasExtension (path ++ (".js" : Text)) = true :=
  hasExtension_iff.2 ⟨path, ['j', 's'], rfl, by decide⟩

/-- A path that is completed by its extension ends plainly. -/
theorem endsPlain_withDefaultExtension (path : Text) : EndsPlain (withDefaultExtension path) := by
  by_cases h : EndsPlain path
  · rwa [withDefaultExtension_of_endsPlain h]
  · rw [withDefaultExtension_of_not_endsPlain h]
    exact .of_hasExtension (hasExtension_append_default path)

/-- Completing a path does not make it a directory. -/
theorem lastSegment_withDefaultExtension (h : lastSegment path ≠ []) :
    lastSegment (withDefaultExtension path) ≠ [] := by
  by_cases hplain : EndsPlain path
  · rwa [withDefaultExtension_of_endsPlain hplain]
  · rw [withDefaultExtension_of_not_endsPlain hplain]
    exact lastSegment_ne_nil_of_hasExtension (hasExtension_append_default path)

/-- Completing a path by its extension changes only its last segment, and keeps it a name. -/
theorem exists_segments_withDefaultExtension {front : List Text} {last : Text}
    (hsegments : segments path = front ++ [last]) (hlast : last ≠ [] → IsName last) :
    ∃ final, segments (withDefaultExtension path) = front ++ [final] ∧
      (final ≠ [] → IsName final) := by
  by_cases hplain : EndsPlain path
  · rw [withDefaultExtension_of_endsPlain hplain]
    exact ⟨last, hsegments, hlast⟩
  · rw [withDefaultExtension_of_not_endsPlain hplain]
    -- the extension joins the last segment, which has no slash
    have hslash : '/' ∉ last ++ (".js" : Text) := by
      rw [List.mem_append, not_or, ← lastSegment_of_segments hsegments]
      exact ⟨slash_not_mem_lastSegment path, by decide⟩
    exact ⟨last ++ (".js" : Text), segments_append_of_not_mem hsegments (by decide),
      fun _ => isName_of_hasExtension hslash (hasExtension_append_default last)⟩

end DefaultExtension

/-! ## Ids of paths -/

section Paths

variable {path : Text}

/-- An id without a question mark has no query. -/
theorem stripQuery_of_not_mem (h : '?' ∉ path) : stripQuery path = path :=
  List.takeWhile_eq_self_iff.2 (Text.bne_of_not_mem h)

/-- A path without the mark does not end in it. -/
theorem dropFinal?_of_not_mem (h : marker ∉ path) : Text.dropFinal? marker path = none := by
  rw [Text.dropFinal?, if_neg]
  exact fun hlast => h (List.mem_of_getLast? hlast)

/-- The canonical form of an id without a query and without a mark at its end. -/
theorem canonical_cons (hquery : '?' ∉ path) (hfinal : Text.dropFinal? marker path = none) :
    canonical (marker :: path) =
      marker :: Path.normalize (withDefaultExtension (expandVersioned path)) := by
  rw [canonical, show body (marker :: path) = path from rfl, stripQuery_of_not_mem hquery]
  simp only [hfinal]

/-- The pathname of a canonical id without a query and without a mark at its end. -/
theorem toPathname_cons {base : Text} (hquery : '?' ∉ path) (hmarker : marker ∉ path) :
    toPathname base (marker :: path) =
      Path.normalize (base ++ Path.normalize (withDefaultExtension (expandVersioned path))) := by
  have hplain := (endsPlain_withDefaultExtension (expandVersioned path)).normalize
  have hid : isCanonical (marker :: path) = true := rfl
  rw [toPathname, if_pos hid, canonical_cons hquery (dropFinal?_of_not_mem hmarker)]
  simp only [List.tail_cons]
  rw [hplain.dropFinal?_eq_none (by decide) (by decide), Option.getD_none]

end Paths

/-! ## Pathnames of ids -/

/-- A path below the base starts at the root. -/
theorem isAbsolute_base_append (hvalid : config.Valid) (rest : Text) :
    isAbsolute (config.base ++ rest) = true :=
  isAbsolute_append (beq_iff_eq.2 hvalid.base_absolute) rest

/-- Whether a text names a path as it is: it is no canonical id, or it is one with the mark for
it. -/
def keepsPath (written : Text) : Bool :=
  !isCanonical written || (Text.dropFinal? marker (stripQuery (body written))).isSome

/-- The pathname of a canonical id is in normal form. -/
theorem exists_rooted_toPathname (hvalid : config.Valid) (h : isCanonical id = true) :
    ∃ names last, Rooted (toPathname config.base id) names last := by
  rw [toPathname, if_pos h]
  exact exists_rooted_normalize (isAbsolute_base_append hvalid _)

/-- The pathname of an id that does not keep its path ends plainly. -/
theorem endsPlain_toPathname (hvalid : config.Valid) (h : keepsPath id = false) :
    EndsPlain (toPathname config.base id) := by
  obtain ⟨front, hbase⟩ := List.getLast?_eq_some_iff.1 hvalid.base_directory
  obtain ⟨hcanonical, hnone⟩ : isCanonical id = true ∧
      Text.dropFinal? marker (stripQuery (body id)) = none := by
    simpa [keepsPath] using h
  -- the path is completed, and neither normalizing nor the base changes how it ends
  have hplain : EndsPlain (Path.normalize
      (withDefaultExtension (expandVersioned (stripQuery (body id))))) :=
    (endsPlain_withDefaultExtension _).normalize
  rw [toPathname, if_pos hcanonical, canonical, hnone]
  simp only [List.tail_cons]
  rw [hplain.dropFinal?_eq_none (by decide) (by decide), Option.getD_none, hbase,
    List.append_assoc, List.singleton_append]
  exact (hplain.append_slash front).normalize

end ModuleId

end ModuleCompiler
