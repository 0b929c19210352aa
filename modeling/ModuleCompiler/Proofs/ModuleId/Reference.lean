import ModuleCompiler.Proofs.Path.Collapsed
import ModuleCompiler.Proofs.Version.Expansion

/-!
# Relative references lead to what they denote

A relative reference denotes a path, which starts in the directory of its file. Its id is what that
path has behind the base, so the pathname of the id is the path itself, with the default extension
where it has none.

A denoted path is in normal form, and so is everything of it up to one of its slashes. A base that
is written in another way therefore stands in front of none: it refuses every relative reference,
also to files below it (`isPrefix_base_iff`, and `ofReference_refused` for one of them). Where the
base does stand in front, `exists_rooted_base` divides the path behind it, and
`toPathname_of_rooted` puts the two parts together again.
-/

namespace ModuleCompiler

open Path

/-! ## Denoted paths -/

section Denoted

variable {referrer reference : Text}

/-- A reference in a file of the root denotes a normal path from the root. -/
theorem Path.exists_rooted_resolve (h : isAbsolute referrer = true) (reference : Text) :
    ∃ names last, Rooted (resolve referrer reference) names last := by
  rw [resolve]
  split
  · rename_i hreference
    exact exists_rooted_normalize hreference
  · exact exists_rooted_normalize (isAbsolute_append (directory_of_isAbsolute h).1 reference)

/-- A denoted path has no characters but slashes and those of the reference and its file. -/
theorem Path.not_mem_resolve {c : Char} (hc : c ≠ '/') (habsolute : isAbsolute referrer = true)
    (h : c ∉ referrer ++ reference) : c ∉ resolve referrer reference := by
  rw [List.mem_append, not_or] at h
  rw [resolve]
  split
  · exact not_mem_normalize hc h.2
  · refine not_mem_normalize hc ?_
    rw [List.mem_append, not_or]
    exact ⟨fun hmem => h.1 ((directory_of_isAbsolute habsolute).2.subset hmem), h.2⟩

end Denoted

/-! ## Behind the base -/

section Base

variable {config : Config} {path inner last : Text} {names : List Text}

/-- A base that stands in front of a normal path is in normal form, and what is behind it leads
down. -/
theorem exists_rooted_base (hvalid : config.Valid) (h : Rooted (config.base ++ inner) names last) :
    ∃ above below, Rooted config.base above [] ∧ segments inner = below ++ [last] ∧
      ∀ name ∈ below, IsName name := by
  obtain ⟨front, hbase⟩ := List.getLast?_eq_some_iff.1 hvalid.base_directory
  rw [hbase, List.append_assoc, List.singleton_append] at h
  obtain ⟨above, below, rfl, habove, hinner⟩ := h.split
  rw [← hbase] at habove
  exact ⟨above, below, habove, hinner,
    fun name hmem => h.isName name (List.mem_append_right _ hmem)⟩

/-- A base stands in front of the normal paths below it when it is in normal form, and of none
otherwise. -/
theorem isPrefix_base_iff (hvalid : config.Valid) (h : Rooted path names last) :
    config.base <+: path ↔
      normalize config.base = config.base ∧ normalize config.base <+: path := by
  constructor
  · rintro ⟨inner, rfl⟩
    obtain ⟨above, below, hbase, -, -⟩ := exists_rooted_base hvalid h
    rw [normalize_of_rooted hbase]
    exact ⟨rfl, inner, rfl⟩
  · rintro ⟨hnormal, hstart⟩
    rwa [hnormal] at hstart

namespace ModuleId

/-- The default extension belongs to the last segment. -/
theorem withDefaultExtension_append_slash (before after : Text) :
    withDefaultExtension (before ++ '/' :: after) =
      before ++ '/' :: withDefaultExtension after := by
  have hiff : EndsPlain (before ++ '/' :: after) ↔ EndsPlain after := by
    rw [EndsPlain, EndsPlain, lastSegment_append_slash]
  by_cases hplain : EndsPlain after
  · rw [withDefaultExtension_of_endsPlain hplain, withDefaultExtension_of_endsPlain (hiff.2 hplain)]
  · rw [withDefaultExtension_of_not_endsPlain hplain,
      withDefaultExtension_of_not_endsPlain (mt hiff.1 hplain), List.append_assoc,
      List.cons_append]

/-- The path that is left behind the base leads back to where it was taken from. -/
theorem toPathname_of_rooted (hvalid : config.Valid)
    (h : Rooted (config.base ++ inner) names last) (hquery : '?' ∉ inner) (hmarker : marker ∉ inner)
    (hdirectory : ¬ ∃ package version, IsVersionDirectory inner package version) :
    toPathname config.base (marker :: inner) = withDefaultExtension (config.base ++ inner) := by
  obtain ⟨front, hbase⟩ := List.getLast?_eq_some_iff.1 hvalid.base_directory
  obtain ⟨above, below, habove, hinner, hbelow⟩ := exists_rooted_base hvalid h
  obtain ⟨final, hcompleted, hfinal⟩ :=
    exists_segments_withDefaultExtension hinner h.last_isName
  have hrooted := habove.append hbelow hfinal hcompleted
  -- the base ends in a slash, so it has no part in the extension
  have happend : withDefaultExtension (config.base ++ inner) =
      config.base ++ withDefaultExtension inner := by
    rw [hbase, List.append_assoc, List.singleton_append, withDefaultExtension_append_slash,
      List.append_assoc, List.singleton_append]
  rw [toPathname_cons hquery hmarker, expandVersioned_of_not_isVersionDirectory hdirectory,
    normalize_of_segments hcompleted hbelow hfinal, normalize_of_rooted hrooted, happend]

end ModuleId

end Base

/-! ## References -/

namespace ModuleId

section Relative

variable {base referrer reference : Text}

theorem not_absent_or_isCanonical (h : isRelative reference = true) :
    ¬ (reference = absent ∨ isCanonical reference = true) := by
  obtain ⟨rest, rfl⟩ : ∃ rest, reference = '.' :: rest := by
    simpa [isRelative, List.head?_eq_some_iff] using h
  simp [absent, isCanonical, marker]

/-- Behind the base there is an id for every path. -/
theorem ofReference_of_append {inner : Text} (h : isRelative reference = true)
    (heq : resolve referrer reference = base ++ inner) :
    ofReference base referrer reference = .ok (marker :: expandVersioned inner) := by
  have hdrop : Text.dropStart? base (base ++ inner) = some inner :=
    List.isPrefixOf?_eq_some_iff_append_eq.2 rfl
  rw [ofReference, if_neg (not_absent_or_isCanonical h), if_pos h, heq, hdrop]

/-- A relative reference is refused exactly when the base does not stand in front of what it
denotes, as a text. -/
theorem ofReference_eq_outsideBase_iff (h : isRelative reference = true) :
    ofReference base referrer reference = .error (.outsideBase reference referrer) ↔
      ¬ base <+: resolve referrer reference := by
  constructor
  · rintro herror ⟨inner, hinner⟩
    rw [ofReference_of_append h hinner.symm] at herror
    simp at herror
  · intro hnone
    have hdrop : Text.dropStart? base (resolve referrer reference) = none := by
      rw [Option.eq_none_iff_forall_ne_some]
      exact fun inner hsome => hnone ⟨inner, List.append_eq_of_isPrefixOf?_eq_some hsome⟩
    rw [ofReference, if_neg (not_absent_or_isCanonical h), if_pos h, hdrop]

end Relative

variable {config checked : Config} {referrer reference denoted : Text}

/-- A relative reference is refused exactly when it leaves the base or the base is not in normal
form. Where it is not refused, and does not denote the directory of a version, the pathname of its
id is the path that it denotes, with the default extension unless it has one or is a directory. -/
theorem ofReference_denotes (hconfig : config.validate = .ok checked)
    (hreferrer : isAbsolute referrer = true) (hreference : isRelative reference = true)
    (hquery : '?' ∉ referrer ++ reference) (hmarker : marker ∉ referrer ++ reference)
    (hdenoted : resolve referrer reference = denoted) :
    (ofReference checked.base referrer reference = .error (.outsideBase reference referrer) ↔
      Path.normalize checked.base ≠ checked.base ∨ ¬ Path.normalize checked.base <+: denoted) ∧
    ∀ inner, denoted = checked.base ++ inner →
      ∃ id, ofReference checked.base referrer reference = .ok id ∧
        ((¬ ∃ package version, IsVersionDirectory inner package version) →
          toPathname checked.base id =
            if endsInSlash denoted = true ∨ hasExtension denoted = true then denoted
            else denoted ++ (".js" : Text)) := by
  have hvalid := Config.valid_of_validate hconfig
  obtain ⟨names, last, hrooted⟩ := exists_rooted_resolve hreferrer reference
  rw [hdenoted] at hrooted
  refine ⟨?_, fun inner heq => ?_⟩
  · rw [ofReference_eq_outsideBase_iff hreference, hdenoted, isPrefix_base_iff hvalid hrooted,
      not_and_or]
  · refine ⟨_, ofReference_of_append hreference (hdenoted.trans heq), fun hdirectory => ?_⟩
    have hinner : ∀ {c}, c ≠ '/' → c ∉ referrer ++ reference → c ∉ inner := by
      intro c hc hplain hmem
      refine not_mem_resolve hc hreferrer hplain ?_
      rw [hdenoted, heq]
      exact List.mem_append_right _ hmem
    have hne : denoted.isEmpty = false := by
      rw [hrooted.eq]
      rfl
    rw [heq] at hrooted
    rw [expandVersioned_of_not_isVersionDirectory hdirectory,
      toPathname_of_rooted hvalid hrooted (hinner (by decide) hquery) (hinner (by decide) hmarker)
        hdirectory, ← heq, withDefaultExtension, hne]
    simp

/-- A file beside the referring one is found below the base, and one above the base is refused. -/
theorem ofReference_denotes_sibling :
    Config.validate { base := "/srv" } = .ok { base := "/srv/" } ∧
    (∃ id, ofReference "/srv/" "/srv/app/main.js" "./util" = .ok id ∧
      toPathname "/srv/" id = "/srv/app/util.js".toList) ∧
    ofReference "/srv/" "/srv/app/main.js" "../../util" =
      .error (.outsideBase "../../util" "/srv/app/main.js") := by
  have hconfig : Config.validate { base := "/srv" } = .ok { base := "/srv/" } := by decide
  have hsibling : resolve "/srv/app/main.js" "./util" = "/srv/app/util".toList := by decide +kernel
  have habove : resolve "/srv/app/main.js" "../../util" = "/util".toList := by decide +kernel
  have hdirectory : ¬ ∃ package version, IsVersionDirectory "app/util" package version :=
    fun ⟨_, _, h⟩ => absurd h.any_segments (by decide +kernel)
  refine ⟨hconfig, ?_, ?_⟩
  · obtain ⟨id, hid, hpathname⟩ := (ofReference_denotes hconfig (by decide) (by decide)
      (by decide) (by decide) hsibling).2 "app/util" rfl
    refine ⟨id, hid, (hpathname hdirectory).trans ?_⟩
    decide +kernel
  · refine (ofReference_denotes hconfig (by decide) (by decide) (by decide) (by decide) habove).1.2
      (.inr ?_)
    decide +kernel

/-- A base that is written with one slash too many refuses a file below it. -/
theorem ofReference_refused :
    Config.validate { base := "/srv//" } = .ok { base := "/srv//" } ∧
    resolve "/srv/app/main.js" "./util" = "/srv/app/util".toList ∧
    Path.normalize "/srv//" <+: resolve "/srv/app/main.js" "./util" ∧
    ofReference "/srv//" "/srv/app/main.js" "./util" =
      .error (.outsideBase "./util" "/srv/app/main.js") :=
  ⟨by decide, by decide +kernel, ⟨"app/util", by decide +kernel⟩, by decide +kernel⟩

end ModuleId

end ModuleCompiler
