import ModuleCompiler.Proofs.Path.Pathname
import ModuleCompiler.Proofs.Version.Splitting
import ModuleCompiler.Scope.Descriptor
import ModuleCompiler.Script.Reference

/-!
# Declared constraints apply where they are declared

A descriptor names paths, and a path with a version constrains its package. The same version is
looked for three times: in the path as it is declared, in an id that starts with its name, and in
the pathname of that id, behind the base. All three find the same segment and the same path before
it, so a file that refers to a package by a declared name finds a constraint for it in its scope.

What the three have in common is a `Divides`: a path cut at its first version, with plain segments
around it. Every step from the declared path to the pathname keeps it, up to what stands behind the
version: completing the path, giving it the default extension, normalizing it below the base
(`Divides.expandVersioned`, `Divides.withDefaultExtension`, `Divides.rooted_append_normalize`).
`exists_parse_toPathname` is the result for a whole id. The table of constraints is settled apart
from that: of several paths with one package the last in the order of the names decides
(`Scope.lastDeclares_of_get?`).
-/

namespace ModuleCompiler

open Path

/-! ## Tables of declared constraints -/

/-- A table of entries finds the last one with the key. -/
theorem Table.get?_ofList {α : Type} (entries : List (Text × α)) (key : Text) :
    (Table.ofList entries).get? key = entries.reverse.lookup key := by
  induction entries using List.reverseRecOn with
  | nil => rfl
  | append_singleton entries entry ih =>
    have hconcat : Table.ofList (entries ++ [entry]) =
        (Table.ofList entries).insert entry.1 entry.2 := by
      simp [ofList, List.foldl_append]
    rw [hconcat, get?_insert, ih, List.reverse_append, List.reverse_singleton,
      List.singleton_append, List.lookup_cons]
    by_cases heq : key = entry.1
    · simp [heq]
    · have hbeq : (key == entry.1) = false := by simpa using heq
      simp [heq, hbeq]

/-- What a table of entries finds is an entry with the key behind which the key does not come again.
-/
theorem Table.get?_ofList_eq_some_iff {α : Type} {entries : List (Text × α)} {key : Text}
    {value : α} :
    (Table.ofList entries).get? key = some value ↔
      ∃ before after, entries = before ++ (key, value) :: after ∧
        ∀ entry ∈ after, entry.1 ≠ key := by
  rw [get?_ofList, List.lookup_eq_some_iff]
  constructor
  · rintro ⟨behind, ahead, hreverse, hbehind⟩
    refine ⟨ahead.reverse, behind.reverse, ?_, fun entry hmem => ?_⟩
    · rw [← List.reverse_reverse entries, hreverse]
      simp
    · have hne := hbehind entry (List.mem_reverse.1 hmem)
      exact fun heq => by simp [heq] at hne
  · rintro ⟨before, after, rfl, hafter⟩
    refine ⟨after.reverse, before.reverse, by simp, fun entry hmem => ?_⟩
    have hne := hafter entry (List.mem_reverse.1 hmem)
    simpa using fun heq => hne heq.symm

/-- The package below `base` that a path constrains, and the constraint. -/
def declaredConstraint? (base path : Text) : Option (Text × Constraint) := do
  let (package, segment) ← declaredVersion? path
  return (base ++ package, ← Constraint.ofText? segment)

/-- The declared constraints are those of the paths, and every version among them denotes one. -/
theorem declaredVersions_eq_ofList {base : Text} {paths : List Text} {versions : Table Constraint}
    (h : declaredVersions base paths = .ok versions) :
    versions = .ofList (paths.filterMap (declaredConstraint? base)) ∧
      ∀ path ∈ paths, ∀ package segment, declaredVersion? path = some (package, segment) →
        ∃ constraint, Constraint.ofText? segment = some constraint := by
  -- On the paths from the right, since a later path is inserted over what is there. A text that is
  -- no constraint stops the whole table, so each version among the paths denotes one.
  induction paths using List.reverseRecOn generalizing versions with
  | nil =>
    obtain rfl := Except.ok.inj h
    exact ⟨rfl, by simp⟩
  | append_singleton paths path ih =>
    rw [declaredVersions, List.foldlM_append, ← declaredVersions] at h
    rcases hbefore : declaredVersions base paths with error | earlier
    · rw [hbefore] at h
      simp [bind, Except.bind] at h
    · obtain ⟨hearlier, haccepted⟩ := ih hbefore
      rw [hbefore] at h
      simp only [bind, Except.bind, List.foldlM_cons, List.foldlM_nil, pure, Except.pure] at h
      rw [List.filterMap_append, List.filterMap_cons, List.filterMap_nil, declaredConstraint?]
      simp only [List.mem_append, List.mem_singleton]
      rcases hdeclared : declaredVersion? path with _ | ⟨package, segment⟩
      · simp only [hdeclared] at h
        obtain rfl := Except.ok.inj h
        refine ⟨by simpa using hearlier, ?_⟩
        rintro other (hmem | rfl) package segment hother
        · exact haccepted other hmem package segment hother
        · simp [hdeclared] at hother
      · rcases hparse : Constraint.parse segment with _ | constraint
        · simp [hdeclared, hparse] at h
        · have hconstraint := Constraint.parse_eq_ok_iff.1 hparse
          simp only [hdeclared, hparse] at h
          obtain rfl := Except.ok.inj h
          constructor
          · rw [hearlier]
            simp [Table.ofList, List.foldl_append, hconstraint]
          · rintro other (hmem | rfl) package' segment' hother
            · exact haccepted other hmem package' segment' hother
            · obtain ⟨rfl, rfl⟩ : package = package' ∧ segment = segment' := by
                simpa [hdeclared] using hother
              exact ⟨constraint, hconstraint⟩

/-- The constraint on a package is the one of the last path, in the order of the names, that
constrains it. -/
def Scope.LastDeclares (scope : Scope) (base package : Text) (constraint : Constraint) : Prop :=
  ∃ before name path after, scope.aliases.entries = before ++ (name, path) :: after ∧
    declaredConstraint? base path = some (package, constraint) ∧
    ∀ later ∈ after, ∀ other, declaredConstraint? base later.2 ≠ some (package, other)

/-- The table of the declared constraints finds what the last path with the package declares. -/
theorem Scope.lastDeclares_of_get? {scope : Scope} {base package : Text} {constraint : Constraint}
    (h : (Table.ofList (scope.aliases.values.filterMap (declaredConstraint? base))).get? package =
      some constraint) : scope.LastDeclares base package constraint := by
  obtain ⟨before, after, hsplit, hafter⟩ := Table.get?_ofList_eq_some_iff.1 h
  rw [Table.values, List.filterMap_map, List.filterMap_eq_append_iff] at hsplit
  obtain ⟨front, back, hentries, -, hback⟩ := hsplit
  obtain ⟨skipped, ⟨name, path⟩, rest, rfl, -, hlast, hrest⟩ := List.filterMap_eq_cons_iff.1 hback
  refine ⟨front ++ skipped, name, path, rest, by simp [hentries], hlast, ?_⟩
  intro later hlater other hother
  refine hafter (package, other) ?_ rfl
  rw [← hrest]
  exact List.mem_filterMap.2 ⟨later, hlater, hother⟩

/-- A scope has a constraint for every package that one of its paths constrains. -/
theorem exists_versionFor {base origin text name path package segment : Text} {scope : Scope}
    (hscope : Scope.ofDescriptor base origin text = .ok scope)
    (hget : scope.aliasFor name = some path)
    (hdeclared : declaredVersion? path = some (package, segment)) :
    ∃ own constraint, Constraint.ofText? segment = some own ∧
      scope.versionFor (base ++ package) = some constraint ∧
      scope.LastDeclares base (base ++ package) constraint := by
  rw [Scope.ofDescriptor] at hscope
  rcases haliases : aliasesOfDescriptor? text with _ | aliases
  · simp [haliases] at hscope
  rcases hversions : declaredVersions base aliases.values with error | versions
  · simp [haliases, hversions, bind, Except.bind] at hscope
  obtain rfl : _ = scope := by
    simpa [haliases, hversions, bind, Except.bind, pure, Except.pure] using hscope
  obtain ⟨rfl, haccepted⟩ := declaredVersions_eq_ofList hversions
  have hmem : (name, path) ∈ aliases.entries := (aliases.mem_entries_iff name path).2 hget
  have hvalue : path ∈ aliases.values := List.mem_map_of_mem hmem
  obtain ⟨own, hown⟩ := haccepted path hvalue package segment hdeclared
  have hyields : declaredConstraint? base path = some (base ++ package, own) := by
    simp [declaredConstraint?, hdeclared, hown]
  -- the path itself is among those that constrain the package, so there is an entry for it: its
  -- own, or that of a later path
  have hsome : ((Table.ofList (aliases.values.filterMap (declaredConstraint? base))).get?
      (base ++ package)).isSome = true := by
    rw [Table.get?_ofList, List.lookup_isSome_iff]
    exact ⟨_, List.mem_reverse.2 (List.mem_filterMap.2 ⟨path, hvalue, hyields⟩), beq_self_eq_true _⟩
  obtain ⟨constraint, hconstraint⟩ := Option.isSome_iff_exists.1 hsome
  exact ⟨own, constraint, hown, hconstraint, Scope.lastDeclares_of_get? hconstraint⟩

/-! ## Divided ids -/

/-- A segment that names a file or a directory, and has no character that ends an id or a pathname.
-/
structure IsPlain (segment : Text) : Prop extends IsName segment where
  query_not_mem : '?' ∉ segment
  marker_not_mem : ModuleId.marker ∉ segment
  line_not_mem : '\n' ∉ segment

instance (segment : Text) : Decidable (IsPlain segment) :=
  decidable_of_iff
    (IsName segment ∧ '?' ∉ segment ∧ ModuleId.marker ∉ segment ∧ '\n' ∉ segment)
    ⟨fun ⟨hname, hquery, hmarker, hline⟩ => ⟨hname, hquery, hmarker, hline⟩,
      fun h => ⟨h.toIsName, h.query_not_mem, h.marker_not_mem, h.line_not_mem⟩⟩

/-- What no plain segment has is in no segment that is plain or empty. -/
theorem not_mem_of_isPlain {c : Char} {piece : Text} (hc : ∀ name, IsPlain name → c ∉ name)
    (h : piece ≠ [] → IsPlain piece) : c ∉ piece := by
  by_cases hnil : piece = []
  · rw [hnil]
    exact List.not_mem_nil
  · exact hc piece (h hnil)

/-- The default extension makes a plain segment of one that is plain or empty. -/
theorem isPlain_append_extension {piece : Text} (h : piece ≠ [] → IsPlain piece) :
    IsPlain (piece ++ (".js" : Text)) := by
  have happend : ∀ {c : Char}, (∀ name, IsPlain name → c ∉ name) → c ∉ (".js" : Text) →
      c ∉ piece ++ (".js" : Text) := by
    intro c hc hextension
    rw [List.mem_append, not_or]
    exact ⟨not_mem_of_isPlain hc h, hextension⟩
  have hslash : '/' ∉ piece ++ (".js" : Text) :=
    happend (fun _ hplain => hplain.slash_not_mem) (by decide)
  exact ⟨isName_of_hasExtension hslash (hasExtension_iff.2 ⟨piece, ['j', 's'], rfl, by decide⟩),
    happend (fun _ => IsPlain.query_not_mem) (by decide),
    happend (fun _ => IsPlain.marker_not_mem) (by decide),
    happend (fun _ => IsPlain.line_not_mem) (by decide)⟩

/-- A path is divided at its first version, and all of its segments are plain or, behind the
version, empty. -/
structure Divides (path : Text) (before : List Text) (segment : Text) (after : List Text) : Prop
    extends SplitsAt (segments path) before segment after where
  before_plain : ∀ name ∈ before, IsPlain name
  segment_plain : IsPlain segment
  after_plain : ∀ piece ∈ after, piece ≠ [] → IsPlain piece

namespace Divides

variable {path segment : Text} {before after : List Text}

/-- All segments of a divided path are plain or empty. -/
theorem isPlain (h : Divides path before segment after) :
    ∀ piece ∈ segments path, piece ≠ [] → IsPlain piece := by
  have hbehind : ∀ piece ∈ segment :: after, piece ≠ [] → IsPlain piece :=
    List.forall_mem_cons.2 ⟨fun _ => h.segment_plain, h.after_plain⟩
  rw [h.eq]
  exact List.forall_mem_append.2 ⟨fun piece hmem _ => h.before_plain piece hmem, hbehind⟩

/-- No segment of a divided path has one of the characters that none of them may have. -/
theorem not_mem {c : Char} (h : Divides path before segment after)
    (hc : ∀ name, IsPlain name → c ∉ name) (hslash : c ≠ '/') : c ∉ path :=
  not_mem_of_not_mem_segments hslash fun piece hmem => not_mem_of_isPlain hc (h.isPlain piece hmem)

/-- A divided path starts with a name, so it is relative. -/
theorem isAbsolute_eq_false (h : Divides path before segment after) : isAbsolute path = false := by
  rw [Bool.eq_false_iff, Ne, isAbsolute_iff]
  rintro ⟨rest, -, hnil⟩
  obtain ⟨first, others, rfl⟩ := List.exists_cons_of_ne_nil h.before_ne_nil
  rw [h.eq] at hnil
  exact (h.before_plain first List.mem_cons_self).nonempty (List.cons.inj hnil).1

/-- Completing a divided path leaves it divided, with something behind the version. -/
theorem expandVersioned (h : Divides path before segment after) :
    ∃ behind, behind ≠ [] ∧ Divides (expandVersioned path) before segment behind := by
  have hline : '\n' ∉ path := h.not_mem (fun _ => IsPlain.line_not_mem) (by decide)
  rw [ModuleCompiler.expandVersioned, if_neg hline,
    splitAtVersion?_eq_some_iff.2 h.toSplitsAt]
  dsimp only
  -- nothing behind the version is completed by the last name before it
  split
  · obtain ⟨front, last, rfl⟩ := (List.eq_nil_or_concat' before).resolve_left h.before_ne_nil
    rw [List.getLastD_concat]
    refine ⟨[last], List.cons_ne_nil _ _, ⟨?_, h.before_ne_nil, h.isVersion, h.first⟩,
      h.before_plain, h.segment_plain, ?_⟩
    · refine segments_ofSegments (by simp) fun piece hmem => ?_
      rcases List.mem_append.1 hmem with hmem | hmem
      · exact (h.before_plain piece hmem).slash_not_mem
      · rcases List.mem_cons.1 hmem with rfl | hmem
        · exact h.segment_plain.slash_not_mem
        · rw [List.mem_singleton.1 hmem]
          exact (h.before_plain last (by simp)).slash_not_mem
    · intro piece hmem _
      rw [List.mem_singleton.1 hmem]
      exact h.before_plain last (by simp)
  · rename_i hafter
    exact ⟨after, fun hnil => hafter (.inl hnil), h⟩

/-- So does the default extension, if something is behind the version. -/
theorem withDefaultExtension (h : Divides path before segment after) (hafter : after ≠ []) :
    ∃ behind, behind ≠ [] ∧ Divides (ModuleId.withDefaultExtension path) before segment behind := by
  rw [ModuleId.withDefaultExtension]
  split
  · exact ⟨after, hafter, h⟩
  · obtain ⟨front, last, rfl⟩ := (List.eq_nil_or_concat' after).resolve_left hafter
    have hextended : IsPlain (last ++ (".js" : Text)) :=
      isPlain_append_extension (h.after_plain last (by simp))
    have hsegments : segments path = (before ++ segment :: front) ++ [last] := by
      rw [h.eq]
      simp
    refine ⟨front ++ [last ++ (".js" : Text)], by simp, ⟨?_, h.before_ne_nil, h.isVersion, h.first⟩,
      h.before_plain, h.segment_plain, ?_⟩
    · rw [segments_append_of_not_mem hsegments (by decide), List.append_assoc, List.cons_append]
    · intro piece hmem hne
      rcases List.mem_append.1 hmem with hmem | hmem
      · exact h.after_plain piece (List.mem_append_left _ hmem) hne
      · rw [List.mem_singleton.1 hmem]
        exact hextended

/-- A relative divided path keeps its division when it is normalized. -/
theorem rooted_append_normalize {base : Text} {names : List Text} (hbase : Rooted base names [])
    (h : Divides path before segment after) (hafter : after ≠ []) :
    ∃ behind last, Rooted (base ++ normalize path) (names ++ (before ++ segment :: behind)) last ∧
      '\n' ∉ normalize path := by
  obtain ⟨front, last, rfl⟩ := (List.eq_nil_or_concat' after).resolve_left hafter
  have hsegments : segments path = (before ++ segment :: front) ++ [last] := by
    rw [h.eq]
    simp
  obtain ⟨hplain, hlast⟩ : (∀ piece ∈ before ++ segment :: front, piece ≠ [] → IsPlain piece) ∧
      (last ≠ [] → IsPlain last) := by
    have hall := h.isPlain
    rwa [hsegments, List.forall_mem_append, List.forall_mem_singleton] at hall
  -- normalizing drops empty segments, and those stand behind the version only
  have hfilter : (before ++ segment :: front).filter (· ≠ []) =
      before ++ segment :: front.filter (· ≠ []) := by
    have hkept : before.filter (· ≠ []) = before :=
      List.filter_eq_self.2 fun name hmem => by simpa using (h.before_plain name hmem).nonempty
    rw [List.filter_append, hkept,
      List.filter_cons_of_pos (by simpa using h.segment_plain.nonempty)]
  have hnormal : segments (normalize path) =
      (before ++ segment :: front.filter (· ≠ [])) ++ [last] := by
    rw [segments_normalize h.isAbsolute_eq_false hsegments
      (fun piece hmem hne => (hplain piece hmem hne).toIsName) (fun hne => (hlast hne).toIsName),
      hfilter]
  have hnames : ∀ piece ∈ before ++ segment :: front.filter (· ≠ []), IsPlain piece := by
    intro piece hmem
    rw [← hfilter, List.mem_filter] at hmem
    exact hplain piece hmem.1 (by simpa using hmem.2)
  refine ⟨front.filter (· ≠ []), last, hbase.append (fun piece hmem => (hnames piece hmem).toIsName)
    (fun hne => (hlast hne).toIsName) hnormal, ?_⟩
  refine not_mem_of_not_mem_segments (by decide) fun piece hmem => ?_
  rw [hnormal, List.mem_append, List.mem_singleton] at hmem
  rcases hmem with hmem | rfl
  · exact (hnames piece hmem).line_not_mem
  · exact not_mem_of_isPlain (fun _ => IsPlain.line_not_mem) hlast

end Divides

/-! ## The pathname of an id -/

/-- A base directory in normal form with no version and no line break in it. -/
structure IsPlainBase (base : Text) : Prop where
  absolute : isAbsolute base = true
  normal : normalize base = base
  directory : endsInSlash base = true
  unversioned : ∀ segment ∈ segments base, isVersionSegment segment = false
  line_not_mem : '\n' ∉ base

theorem IsPlainBase.exists_rooted {base : Text} (h : IsPlainBase base) :
    ∃ names, Rooted base names [] := by
  obtain ⟨names, last, hrooted⟩ := exists_rooted_of_normalize_eq h.absolute h.normal
  obtain rfl : [] = last := by
    rw [← hrooted.lastSegment_eq]
    exact (lastSegment_eq_nil_iff.2 (.inr h.directory)).symm
  exact ⟨names, hrooted⟩

/-- A division of an id at a version is one of its pathname, with the base before it. -/
theorem exists_parse_toPathname {base path segment : Text} {before after : List Text}
    {own : Constraint} (hbase : IsPlainBase base) (h : Divides path before segment after)
    (hfirst : ∀ name ∈ before.head?, isVersionSegment name = false)
    (hown : Constraint.ofText? segment = some own) :
    ∃ versioned, VersionedPath.parse (ModuleId.toPathname base (ModuleId.marker :: path)) =
        .ok (some versioned) ∧
      versioned.package = base ++ ofSegments before := by
  obtain ⟨names, hrooted⟩ := hbase.exists_rooted
  obtain ⟨expanded, hexpanded, hdivides⟩ := h.expandVersioned
  obtain ⟨extended, hextended, hdivides'⟩ := hdivides.withDefaultExtension hexpanded
  obtain ⟨behind, last, hpathname, hline⟩ := hdivides'.rooted_append_normalize hrooted hextended
  rw [ModuleId.toPathname_cons (h.not_mem (fun _ => IsPlain.query_not_mem) (by decide))
    (h.not_mem (fun _ => IsPlain.marker_not_mem) (by decide)), normalize_of_rooted hpathname]
  -- the slash between the base and the path stands at the end of the base
  have hpackage : base ++ ofSegments before = ofSegments ([] :: names ++ before) := by
    have hslash : base = ofSegments ([] :: names) ++ ['/'] := by
      rw [hrooted.eq, ← ofSegments_directoryAt, ofSegments_concat (List.cons_ne_nil _ _)]
    rw [ofSegments_append (List.cons_ne_nil _ _) h.before_ne_nil, hslash, List.append_assoc,
      List.singleton_append]
  refine ⟨⟨base ++ ofSegments before, own, ofSegments (behind ++ [last])⟩, ?_, rfl⟩
  rw [VersionedPath.parse_eq_some_iff]
  refine ⟨?_, [] :: names ++ before, segment, behind ++ [last], ⟨?_, by simp, h.isVersion, ?_⟩,
    by simp, hown, hpackage, rfl⟩
  · rw [List.mem_append, not_or]
    exact ⟨hbase.line_not_mem, hline⟩
  · rw [segments_of_rooted hpathname]
    simp
  · -- neither the base nor what is before the version has an earlier one
    intro name hmem
    rcases List.mem_append.1 hmem with hname | hname
    · refine hbase.unversioned name ?_
      rw [segments_of_rooted hrooted]
      simp [hname]
    · obtain ⟨first, rest, rfl⟩ := List.exists_cons_of_ne_nil h.before_ne_nil
      rcases List.mem_cons.1 hname with rfl | hname
      · exact hfirst name rfl
      · exact h.first name hname

/-! ## References through a declared name -/

theorem Text.cut?_eq_none {separator : Char} {text : Text} (h : separator ∉ text) :
    Text.cut? separator text = none := by
  rw [Text.cut?, List.dropWhile_eq_nil_iff.2 (Text.bne_of_not_mem h)]

theorem Text.cut?_append_cons {separator : Char} {before : Text} (h : separator ∉ before)
    (after : Text) : Text.cut? separator (before ++ separator :: after) = some (before, after) := by
  have hall := Text.bne_of_not_mem h
  rw [Text.cut?, List.dropWhile_append_of_pos hall, List.takeWhile_append_of_pos hall]
  simp

/-- A path with a version behind its first segment, as an alias may name it: after the mark of
canonical ids or without it, and with a slash at its end or without it. -/
structure NamesVersion (path : Text) (pieces : List Text) : Prop where
  body : ModuleId.body path = ofSegments pieces ∨ ModuleId.body path = ofSegments pieces ++ ['/']
  plain : ∀ piece ∈ pieces, IsPlain piece
  first : ∀ first ∈ pieces.head?, ModuleId.isRelative first = false ∧ isVersionSegment first = false
  version : ∃ piece ∈ pieces.tail, isVersionSegment piece = true

namespace NamesVersion

variable {path : Text} {pieces : List Text}

/-- There is a segment that is a version. -/
theorem pieces_ne_nil (h : NamesVersion path pieces) : pieces ≠ [] := by
  rintro rfl
  obtain ⟨piece, hmem, -⟩ := h.version
  simp at hmem

/-- So there is a first one, behind the first segment. -/
theorem exists_splitsAt (h : NamesVersion path pieces) :
    ∃ before segment after, SplitsAt pieces before segment after := by
  rcases hsplit : splitAtVersion? pieces with _ | ⟨before, segment, after⟩
  · obtain ⟨piece, hmem, hversion⟩ := h.version
    rw [splitAtVersion?_eq_none_iff.1 hsplit piece hmem] at hversion
    exact Bool.noConfusion hversion
  · exact ⟨before, segment, after, splitAtVersion?_eq_some_iff.1 hsplit⟩

/-- A path that starts with the pieces is divided as they are. -/
theorem divides {whole segment : Text} {before after rest : List Text}
    (h : NamesVersion path pieces) (hsplit : SplitsAt pieces before segment after)
    (hwhole : segments whole = pieces ++ rest)
    (hrest : ∀ piece ∈ rest, piece ≠ [] → IsPlain piece) :
    Divides whole before segment (after ++ rest) := by
  have hplain := h.plain
  rw [hsplit.eq] at hplain
  refine ⟨⟨?_, hsplit.before_ne_nil, hsplit.isVersion, hsplit.first⟩,
    fun name hmem => hplain name (List.mem_append_left _ hmem), hplain segment (by simp), ?_⟩
  · rw [hwhole, hsplit.eq]
    simp
  · intro piece hmem hne
    rcases List.mem_append.1 hmem with hmem | hmem
    · exact hplain piece (by simp [hmem])
    · exact hrest piece hmem hne

/-- The segments of the path are the pieces, and an empty one behind a slash at the end. -/
theorem exists_segments_body (h : NamesVersion path pieces) :
    ∃ padding, segments (ModuleId.body path) = pieces ++ padding ∧
      ∀ piece ∈ padding, piece = [] := by
  have hpieces : segments (ofSegments pieces) = pieces :=
    segments_ofSegments h.pieces_ne_nil fun piece hmem => (h.plain piece hmem).slash_not_mem
  rcases h.body with hbody | hbody
  · exact ⟨[], by rw [hbody, hpieces, List.append_nil], by simp⟩
  · refine ⟨[[]], ?_, by simp⟩
    rw [hbody, segments_append_slash', hpieces]
    rfl

/-- The version that a descriptor reads in the path. -/
theorem declaredVersion?_eq {segment : Text} {before after : List Text}
    (h : NamesVersion path pieces) (hsplit : SplitsAt pieces before segment after) :
    declaredVersion? path = some (ofSegments before, segment) := by
  obtain ⟨padding, hsegments, hpadding⟩ := h.exists_segments_body
  have hdivides := h.divides hsplit hsegments fun piece hmem hne => absurd (hpadding piece hmem) hne
  have hline : '\n' ∉ ofSegments before := by
    refine not_mem_of_not_mem_segments (by decide) fun piece hmem => ?_
    rw [segments_ofSegments hdivides.before_ne_nil fun name hname =>
      (hdivides.before_plain name hname).slash_not_mem] at hmem
    exact (hdivides.before_plain piece hmem).line_not_mem
  rw [declaredVersion?, splitAtVersion?_eq_some_iff.2 hdivides.toSplitsAt]
  dsimp only
  rw [if_neg hline]

/-- A text that starts with the pieces is no relative, absent or canonical id. -/
theorem starts_plain {whole : Text} {behind : List Text} (h : NamesVersion path pieces)
    (hwhole : segments whole = pieces ++ behind) :
    ModuleId.isRelative whole = false ∧
      ¬ (whole = ModuleId.absent ∨ ModuleId.isCanonical whole = true) := by
  obtain ⟨first, others, rfl⟩ := List.exists_cons_of_ne_nil h.pieces_ne_nil
  have hothers : others ++ behind ≠ [] := by
    obtain ⟨piece, hmem, -⟩ := h.version
    exact List.append_ne_nil_of_left_ne_nil (List.ne_nil_of_mem hmem) _
  have heq : whole = first ++ '/' :: ofSegments (others ++ behind) := by
    rw [← ofSegments_segments whole, hwhole, List.cons_append, ← List.singleton_append,
      ofSegments_append (List.cons_ne_nil _ _) hothers, ofSegments_singleton]
  obtain ⟨hrelative, -⟩ := h.first first rfl
  have hplain := h.plain first List.mem_cons_self
  obtain ⟨c, rest, rfl⟩ := List.exists_cons_of_ne_nil hplain.nonempty
  rw [heq]
  refine ⟨hrelative, ?_⟩
  -- the absent id has no slash, and the mark of a canonical one is in no plain segment
  rintro (habsent | hcanonical)
  · have hmem : '/' ∈ ModuleId.absent := by
      rw [← habsent]
      simp
    exact absurd hmem (by decide)
  · have hc : c = ModuleId.marker := by
      simpa [ModuleId.isCanonical] using hcanonical
    exact hplain.marker_not_mem (by simp [hc])

end NamesVersion

/-- An id that starts with a declared name has its path in the place of the name. -/
theorem Script.expandAlias_ofSegments {scope : Scope} {name path : Text} (hslash : '/' ∉ name)
    (hget : scope.aliasFor name = some path) (rest : List Text) :
    expandAlias scope (ofSegments (name :: rest)) =
      if rest = [] then path else path ++ '/' :: ofSegments rest := by
  rcases eq_or_ne rest [] with rfl | hne
  · rw [ofSegments_singleton, expandAlias, Text.cut?_eq_none hslash, if_pos rfl]
    simp [hget]
  · rw [ofSegments_cons name hne, expandAlias, Text.cut?_append_cons hslash, if_neg hne]
    simp [hget]

/-- A name that an id may start with to mean what a descriptor declares. -/
structure IsAliasName (name : Text) : Prop where
  ne_absent : name ≠ ModuleId.absent
  slash_not_mem : '/' ∉ name
  not_canonical : ModuleId.isCanonical name = false

namespace IsAliasName

variable {scope : Scope} {base referrer name path : Text} {pieces rest : List Text}

/-- An id that starts with the name is neither absent nor canonical. -/
theorem ofSegments (h : IsAliasName name) (rest : List Text) :
    ¬ (ofSegments (name :: rest) = ModuleId.absent ∨
      ModuleId.isCanonical (Path.ofSegments (name :: rest)) = true) := by
  rcases eq_or_ne rest [] with rfl | hne
  · rw [ofSegments_singleton, h.not_canonical]
    simpa using h.ne_absent
  · rw [ofSegments_cons name hne]
    rintro (habsent | hcanonical)
    · have hmem : '/' ∈ ModuleId.absent := by
        rw [← habsent]
        simp
      exact absurd hmem (by decide)
    · rcases hname : name with _ | ⟨c, tail⟩
      · rw [hname] at hcanonical
        exact absurd hcanonical (by simp [ModuleId.isCanonical, ModuleId.marker])
      · have hnot := h.not_canonical
        rw [hname] at hcanonical hnot
        rw [List.cons_append, ModuleId.isCanonical, List.head?_cons] at hcanonical
        rw [ModuleId.isCanonical, List.head?_cons, hcanonical] at hnot
        exact Bool.noConfusion hnot

/-- What an id that starts with the name settles to: its path behind the mark of canonical ids,
which may have been completed. -/
theorem exists_settleId (base : Text) (h : IsAliasName name)
    (hget : scope.aliasFor name = some path) (hpath : NamesVersion path pieces)
    (hrest : ∀ piece ∈ rest, IsPlain piece) :
    ∃ whole behind, segments whole = pieces ++ behind ∧
      (∀ piece ∈ behind, piece ≠ [] → IsPlain piece) ∧
      (Script.settleId scope base referrer (Path.ofSegments (name :: rest)) =
          .ok (ModuleId.marker :: whole) ∨
        Script.settleId scope base referrer (Path.ofSegments (name :: rest)) =
          .ok (ModuleId.marker :: expandVersioned whole)) := by
  obtain ⟨padding, hbody, hpadding⟩ := hpath.exists_segments_body
  let suffix : Text := if rest = [] then [] else '/' :: Path.ofSegments rest
  have hexpand : Script.expandAlias scope (Path.ofSegments (name :: rest)) = path ++ suffix := by
    rw [Script.expandAlias_ofSegments h.slash_not_mem hget]
    by_cases hnil : rest = [] <;> simp [suffix, hnil]
  have hwhole : segments (ModuleId.body path ++ suffix) = pieces ++ (padding ++ rest) := by
    by_cases hnil : rest = []
    · simp [suffix, hnil, hbody]
    · have hsuffix : suffix = '/' :: Path.ofSegments rest := if_neg hnil
      rw [hsuffix, segments_append_slash', hbody,
        segments_ofSegments hnil fun piece hmem => (hrest piece hmem).slash_not_mem,
        List.append_assoc]
  refine ⟨ModuleId.body path ++ suffix, padding ++ rest, hwhole, ?_, ?_⟩
  · intro piece hmem hne
    rcases List.mem_append.1 hmem with hmem | hmem
    · exact absurd (hpadding piece hmem) hne
    · exact hrest piece hmem
  · rw [Script.settleId, if_neg (h.ofSegments rest), hexpand, ModuleId.ofReference]
    -- A path with the mark stands for an id as it is, one without it is read as a reference and
    -- completed.
    rcases hcanonical : ModuleId.isCanonical path with _ | _
    · right
      have hbodyEq : ModuleId.body path = path := by
        rw [ModuleId.body, hcanonical, if_neg Bool.false_ne_true]
      rw [hbodyEq] at hwhole ⊢
      obtain ⟨hrelative, hplain⟩ := hpath.starts_plain hwhole
      rw [if_neg hplain, hrelative, if_neg Bool.false_ne_true]
    · left
      obtain ⟨tail, rfl⟩ : ∃ tail, path = ModuleId.marker :: tail := by
        simpa [ModuleId.isCanonical, List.head?_eq_some_iff] using hcanonical
      rw [if_pos (.inr rfl)]
      rfl

end IsAliasName

/-- Under a plain base, take any name that a descriptor declares for a path with a version behind
its first segment. Whatever file refers to it, by the name alone or with more segments behind it,
the pathname of the reference is versioned, and the scope has a constraint for its package: that of
the last path, in the order of the names, that constrains the package. -/
theorem declared_constraint_applies {base origin text name path : Text} {scope : Scope}
    {pieces : List Text} (hbase : IsPlainBase base)
    (hscope : Scope.ofDescriptor base origin text = .ok scope) (hname : IsAliasName name)
    (hget : scope.aliasFor name = some path) (hpath : NamesVersion path pieces)
    (referrer : Text) (rest : List Text) (hrest : ∀ piece ∈ rest, IsPlain piece) :
    ∃ id versioned constraint,
      Script.settleId scope base referrer (ofSegments (name :: rest)) = .ok id ∧
      VersionedPath.parse (ModuleId.toPathname base id) = .ok (some versioned) ∧
      scope.versionFor versioned.package = some constraint ∧
      scope.LastDeclares base versioned.package constraint := by
  obtain ⟨before, segment, after, hsplit⟩ := hpath.exists_splitsAt
  obtain ⟨own, constraint, hown, hversion, hlast⟩ :=
    exists_versionFor hscope hget (hpath.declaredVersion?_eq hsplit)
  obtain ⟨whole, behind, hwhole, hbehind, hsettle⟩ :=
    hname.exists_settleId base hget hpath hrest
  have hdivides := hpath.divides hsplit hwhole hbehind
  have hfirst : ∀ first ∈ before.head?, isVersionSegment first = false := by
    intro first hmem
    refine (hpath.first first ?_).2
    rwa [hsplit.eq, List.head?_append_of_ne_nil _ hsplit.before_ne_nil]
  rcases hsettle with hsettle | hsettle
  · obtain ⟨versioned, hparse, hpackage⟩ := exists_parse_toPathname hbase hdivides hfirst hown
    rw [← hpackage] at hversion hlast
    exact ⟨_, versioned, constraint, hsettle, hparse, hversion, hlast⟩
  · obtain ⟨completed, -, hcompleted⟩ := hdivides.expandVersioned
    obtain ⟨versioned, hparse, hpackage⟩ := exists_parse_toPathname hbase hcompleted hfirst hown
    rw [← hpackage] at hversion hlast
    exact ⟨_, versioned, constraint, hsettle, hparse, hversion, hlast⟩

/-- A descriptor that constrains one package twice, once behind the mark of canonical ids. -/
def twiceDeclared : Text :=
  "\x7b\"alias\": \x7b\"x\": \"#lib/x/1.0.0/\", \"y\": \"lib/x/2.0.0+/y/3.0.0\"\x7d\x7d"

/-- The name of the first path finds the constraint of the second. -/
theorem declared_constraint_applies_twiceDeclared :
    ∃ scope, Scope.ofDescriptor "/app/" "/app/package.json" twiceDeclared = .ok scope ∧
      scope.aliasFor "x" = some "#lib/x/1.0.0/".toList ∧ IsPlainBase "/app/" ∧ IsAliasName "x" ∧
      NamesVersion "#lib/x/1.0.0/" (["lib", "x", "1.0.0"].map String.toList) ∧
      ∃ id versioned constraint,
        Script.settleId scope "/app/" "/app/main.js" "x/util" = .ok id ∧
        VersionedPath.parse (ModuleId.toPathname "/app/" id) = .ok (some versioned) ∧
        scope.versionFor versioned.package = some constraint ∧
        scope.LastDeclares "/app/" versioned.package constraint := by
  let scope : Scope := ⟨.ofList [("x", "#lib/x/1.0.0/"), ("y", "lib/x/2.0.0+/y/3.0.0")],
    .ofList [("/app/lib/x", ⟨⟨2, 0, 0⟩, .atLeast⟩)], some "/app/package.json"⟩
  have hscope : Scope.ofDescriptor "/app/" "/app/package.json" twiceDeclared = .ok scope := by
    decide +kernel
  have hget : scope.aliasFor "x" = some "#lib/x/1.0.0/".toList := by decide
  have hbase : IsPlainBase "/app/" := ⟨by decide, by decide, by decide, by decide, by decide⟩
  have hname : IsAliasName "x" := ⟨by decide, by decide, by decide⟩
  have hpath : NamesVersion "#lib/x/1.0.0/" (["lib", "x", "1.0.0"].map String.toList) :=
    ⟨.inr (by decide), by decide, by decide, by decide⟩
  exact ⟨scope, hscope, hget, hbase, hname, hpath,
    declared_constraint_applies hbase hscope hname hget hpath "/app/main.js" ["util"] (by decide)⟩

end ModuleCompiler
