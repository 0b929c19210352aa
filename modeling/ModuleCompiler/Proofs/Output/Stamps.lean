import ModuleCompiler.Proofs.Cache.LoadOrder
import ModuleCompiler.Proofs.Cache.Pins
import ModuleCompiler.Proofs.Script.HeaderSearch
import ModuleCompiler.Proofs.Script.Scanning

/-!
# Stamps in an output and in its header

An output names what it requires twice: where the source requires it, with the id of the file that
it turned out to be and a stamp, and in the header, which lists the pathnames to load before. The
header takes the range marks off a pathname before it goes into a stamp. So the two agree for a
pathname without such marks, and for every pathname when the stamp does not show it.

A `Division` cuts the stamped source of a file twice, at its ids and at its header. Every source
with a header has one, and the output is put together from the pieces of the second cut
(`Division.exists_finalize_eq`). Where an id lies in one of the pieces is arithmetic on byte
lengths (`Division.stands_of_outside`). Which file the id stands for is a question about the
session: all that a file requires under one pathname is the same file (`resolvedFile?_eq`).
-/

namespace ModuleCompiler

/-! ## Stamps -/

namespace Text

/-- Without an occurrence of the pattern the rest of a text stays as it is. -/
theorem replaceFrom_of_not_infix {pattern replacement text : Text} (h : ¬ pattern <:+: text) :
    replaceFrom pattern replacement 0 text = text := by
  induction text with
  | nil => rfl
  | cons c rest ih =>
    have hstart : pattern.isPrefixOf (c :: rest) = false := by
      rw [← Bool.not_eq_true, List.isPrefixOf_iff_prefix]
      exact fun hstart => h hstart.isInfix
    have hrest : ¬ pattern <:+: rest := fun hrest => h (List.infix_cons hrest)
    rw [replaceFrom, hstart, ih hrest]
    rfl

/-- Without an occurrence of the pattern a text stays as it is. -/
theorem replaceAll_of_not_infix {pattern text : Text} (h : ¬ pattern <:+: text)
    (replacement : Text) : replaceAll pattern replacement text = text :=
  replaceFrom_of_not_infix h

end Text

namespace Output

open Script

/-- What stands for an id in the stamped source. -/
def stampedText (config : Config) (file : CompiledFile) (found : IdSpan) : Text :=
  if isStamped found.id then stampedId config file found else found.id

/-- The text of a required file, where an id stands for it. -/
def resolvedText (config : Config) (file : CompiledFile) : Text :=
  file.id ++ config.stamp file.pathname

/-- The header lists a file as the source requires it, when its pathname has no range marks or does
not show in the stamp. -/
theorem listedDependency_eq {config : Config} {file : CompiledFile}
    (hid : file.id = ModuleId.ofPathname config.base file.pathname)
    (h : ModuleId.withoutRanges file.pathname = file.pathname ∨
      ¬ Config.pathnamePlace <:+: config.stampTemplate) :
    listedDependency config file.pathname = resolvedText config file := by
  rw [listedDependency, resolvedText, hid]
  rcases h with hplain | hplace
  · rw [hplain]
  · rw [Config.stamp, Config.stamp, Text.replaceAll_of_not_infix hplace,
      Text.replaceAll_of_not_infix hplace]

/-! ## The stamped source -/

/-- The stamped source of a file, cut at its ids and at its header. -/
structure Division (config : Config) (file : CompiledFile) where
  pieces : List Piece
  tail : Text
  before : Text
  header : Text
  rest : Text
  found_eq : pieces.map Piece.found = scan file.source
  positioned : Positioned 0 pieces
  source_eq : file.source = assembled IdSpan.id pieces tail
  stamped_eq : stampedSource config file = assembled (stampedText config file) pieces tail
  header_eq : stampedSource config file = before ++ header ++ rest
  span_eq : headerSpan? config.headerCallee (stampedSource config file) =
    some (Text.byteLength before, Text.byteLength (before ++ header))

section Division

variable {config : Config} {file : CompiledFile} {pieces : List Piece} {tail : Text}

/-- Stamping writes the text of each id in its place. -/
theorem stampedSource_eq (hfound : pieces.map Piece.found = scan file.source)
    (hsource : file.source = assembled IdSpan.id pieces tail) (hpositioned : Positioned 0 pieces) :
    stampedSource config file = assembled (stampedText config file) pieces tail := by
  -- every edit takes the bytes of the id that it is for
  have hedit : ∀ (found : IdSpan) (e : Edit), (if isStamped found.id then
      found.edit? (stampedId config file found) else none) = some e →
        e.start = found.start ∧ e.stop = found.stop := by
    intro found e h
    split at h
    · exact IdSpan.span_of_edit? h
    · simp at h
  rw [stampedSource, ← hfound]
  conv_lhs => rw [hsource]
  rw [splice_assembled hedit hpositioned]
  -- a stamped id is replaced by its edit, any other is left
  refine assembled_congr (fun piece _ => ?_) tail
  by_cases hstamped : isStamped piece.found.id = true
  · simp only [written, stampedText, if_pos hstamped]
    exact IdSpan.text_edit? _ _
  · simp only [written, stampedText, if_neg hstamped]
    rfl

/-- Every stamped source with a header can be cut. -/
theorem nonempty_division (hvalid : config.Valid)
    (h : (headerSpan? config.headerCallee (stampedSource config file)).isSome = true) :
    Nonempty (Division config file) := by
  obtain ⟨pieces, tail, hfound, hsource, hpositioned⟩ := exists_pieces_scan file.source
  obtain ⟨⟨start, stop⟩, hspan⟩ := Option.isSome_iff_exists.1 h
  obtain ⟨before, header, rest, hheader, rfl, rfl⟩ :=
    exists_of_headerSpan? hvalid.isCallee hspan
  exact ⟨⟨pieces, tail, before, header, rest, hfound, hpositioned, hsource,
    stampedSource_eq hfound hsource hpositioned, hheader, hspan⟩⟩

namespace Division

variable (division : Division config file)

/-- The output is the stamped source with the declaring header in place of the header found, behind
some comments. -/
theorem exists_finalize_eq : ∃ comments, finalize config file =
    comments ++ division.before ++ declaringHeader config file ++ division.rest := by
  have hdeclared : declaredSource config file (stampedSource config file) =
      division.before ++ declaringHeader config file ++ division.rest := by
    rw [declaredSource, replaceHeader, division.span_eq]
    show splice (stampedSource config file) _ = _
    rw [division.header_eq, splice_singleton]
  rw [finalize, hdeclared]
  -- the comments on the relations of the file are there or not
  split
  · exact ⟨[], rfl⟩
  · refine ⟨Text.joined ['\n'] (relationComments file) ++ ("\n\n" : Text), ?_⟩
    simp only [List.append_assoc]

variable {ahead behind : List Piece} {piece : Piece}

/-- The stamped text of the id of a piece lies before the header or behind it. -/
def Outside (ahead : List Piece) (piece : Piece) : Prop :=
  let text := stampedText config file
  Text.byteLength (assembled text ahead piece.gap ++ text piece.found) ≤
      Text.byteLength division.before ∨
    Text.byteLength (division.before ++ division.header) ≤
      Text.byteLength (assembled text ahead piece.gap)

/-- A text stands for the id of a piece in what is before the header or in what is behind it. -/
def Stands (ahead : List Piece) (piece : Piece) (behind : List Piece) (shown : Text) : Prop :=
  let text := stampedText config file
  (∃ between, division.before = assembled text ahead (piece.gap ++ shown ++ between)) ∨
    ∃ between, division.rest = between ++ shown ++ assembled text behind division.tail

/-- What lies outside the header stands in the output. -/
theorem stands_of_outside (hpieces : division.pieces = ahead ++ piece :: behind)
    (h : division.Outside ahead piece) :
    division.Stands ahead piece behind (stampedText config file piece.found) := by
  -- the stamped source, cut at the id and cut at the header
  have hcut : assembled (stampedText config file) ahead piece.gap ++
      (stampedText config file piece.found ++
        assembled (stampedText config file) behind division.tail) =
          division.before ++ division.header ++ division.rest := by
    rw [← division.header_eq, division.stamped_eq, hpieces, assembled_append, assembled_cons]
    simp [assembled]
  -- the two cuts of one text are compared by their lengths: the id lies before the header, and
  -- something is left between them, or behind it
  rcases h with hbefore | hbehind
  · left
    rw [← List.append_assoc, List.append_assoc division.before] at hcut
    obtain ⟨between, hbetween, -⟩ := Text.exists_append_of_byteLength_le hcut hbefore
    refine ⟨between, ?_⟩
    rw [hbetween]
    simp [assembled]
  · right
    obtain ⟨between, -, hrest⟩ := Text.exists_append_of_byteLength_le hcut.symm hbehind
    refine ⟨between, ?_⟩
    rw [hrest, List.append_assoc]

end Division

end Division

/-! ## The file of a required pathname -/

/-- The file found for a pathname is one that was required under it. -/
theorem mem_of_resolvedFile? {file required : CompiledFile} {requested : Text}
    (h : resolvedFile? file requested = some required) :
    (requested, .module required) ∈ file.dependencies.zip file.children := by
  obtain ⟨⟨pathname, child⟩, hmem, hchild⟩ := List.exists_of_findSome?_eq_some h
  dsimp only at hchild
  split at hchild
  · rename_i heq
    rcases child with stored | reference
    · obtain rfl := Option.some.inj hchild
      rw [← heq]
      exact List.mem_reverse.1 hmem
    · simp [Dependency.file?] at hchild
  · simp at hchild

/-- A file is found for every pathname under which a file was required. -/
theorem exists_resolvedFile? {file required : CompiledFile} {requested : Text}
    (h : (requested, .module required) ∈ file.dependencies.zip file.children) :
    ∃ found, resolvedFile? file requested = some found := by
  rw [← Option.isSome_iff_exists, resolvedFile?, List.findSome?_isSome_iff]
  exact ⟨_, List.mem_reverse.2 h, by simp [Dependency.file?]⟩

end Output

namespace Session.Invariant

open Output

variable {config : Config} {source : Text → Reading} {entries : List Text} {session : Session}
  {file required : CompiledFile} {pathname requested : Text}

/-- All that a file requires under one pathname is the same file. -/
theorem resolvedFile?_eq (h : session.Invariant config source entries)
    (hget : session.compiled.get? pathname = some file)
    (hmem : (requested, .module required) ∈ file.dependencies.zip file.children) :
    resolvedFile? file requested = some required := by
  obtain ⟨found, hfound⟩ := exists_resolvedFile? hmem
  have hother := mem_of_resolvedFile? hfound
  obtain ⟨trace, halong⟩ := h.compiledAlong hget
  have htarget : Trace.target (trace ++ [file.frame]) requested = .ok (some required.pathname) :=
    (List.forall₂_iff_zip.1 halong.answers).2 hmem
  have htarget' : Trace.target (trace ++ [file.frame]) requested = .ok (some found.pathname) :=
    (List.forall₂_iff_zip.1 halong.answers).2 hother
  -- what the pathname means is one pathname, under which one file is stored
  have heq : found.pathname = required.pathname := by
    rw [htarget] at htarget'
    exact (Option.some.inj (Except.ok.inj htarget')).symm
  have hrequired := h.closed hget (List.of_mem_zip hmem).2
  have hstored := h.closed hget (List.of_mem_zip hother).2
  rw [heq, hrequired] at hstored
  rw [hfound, ← Option.some.inj hstored]

/-- What a file requires is listed in its header. -/
theorem pathname_mem_flattened (h : session.Invariant config source entries)
    (hget : session.compiled.get? pathname = some file) (hrequires : file.Requires required) :
    required.pathname ∈ file.flattened :=
  (h.mem_flattened_iff hget).2 ⟨required, .single hrequires, rfl⟩

end Session.Invariant

namespace Compiler

open Output Script

/-- Whatever steps a compiler with checked settings has performed on a fixed set of files, the
output of a compiled entry is its stamped source with the declaring header in the place of the one
found, behind some comments. Where the source requires a file by an id that is stamped, and not in
the header, the output has the id of that file with a stamp. The header lists the pathname of the
file, and by the same text if the pathname has no range marks or does not show in the stamp. -/
theorem stamps_agree {config checked : Config} (hconfig : config.validate = .ok checked)
    (files failures : Table Text) (steps : List Step) (entry : Text) (result : CompiledModule)
    (after : Session)
    (hexec : ((ofFiles checked files failures).compile entry).exec
      ((ofFiles checked files failures).after steps) = (.ok (some result), after))
    (hheader :
      (headerSpan? checked.headerCallee (stampedSource checked result.file)).isSome = true) :
    ∃ (division : Division checked result.file) (comments : Text),
      result.code = comments ++ division.before ++ declaringHeader checked result.file ++
        division.rest ∧
      ∀ ahead piece behind, division.pieces = ahead ++ piece :: behind →
        piece.found.kind.isSync = true → isStamped piece.found.id = true →
        ∀ required : CompiledFile,
          (ModuleId.toPathname checked.base piece.found.id, .module required) ∈
            result.file.dependencies.zip result.file.children →
          let shown := stampedText checked result.file piece.found
          (∃ stamped, shown = required.id ++ checked.stamp stamped) ∧
          (division.Outside ahead piece → division.Stands ahead piece behind shown) ∧
          required.pathname ∈ result.file.flattened ∧
          (ModuleId.withoutRanges required.pathname = required.pathname ∨
              ¬ Config.pathnamePlace <:+: checked.stampTemplate →
            listedDependency checked required.pathname = shown) := by
  have hvalid := Config.valid_of_validate hconfig
  have hreads := (readsAlways_ofFiles checked files failures).toReads
  obtain ⟨hkept, hstored⟩ := establishes_compileReference hreads
    (exec_compileReference_of_result hexec) (.entry List.mem_cons_self)
    (invariant_after hreads (List.subset_cons_self entry (steps.flatMap Step.entries)))
  have hget : after.compiled.get? result.file.pathname = some result.file := (hstored _ rfl).2
  have hcode := code_of_result hexec
  obtain ⟨division⟩ := nonempty_division hvalid hheader
  obtain ⟨comments, hcomments⟩ := division.exists_finalize_eq
  refine ⟨division, comments, hcode.trans hcomments, ?_⟩
  intro ahead piece behind hpieces hsync hstamped required hmem shown
  have hrequires : result.file.Requires required := (List.of_mem_zip hmem).2
  -- the required file is stored too, and declares the id that its pathname has
  obtain ⟨trace, halong⟩ := hkept.compiledAlong (hkept.closed hget hrequires)
  have hid : required.id = ModuleId.ofPathname checked.base required.pathname := halong.id_eq
  -- what stands for a stamped id is the text of the file that was found for it
  have hshown : shown = resolvedText checked required := by
    show stampedText checked result.file piece.found = _
    rw [stampedText, if_pos hstamped, stampedId, if_pos hsync, hkept.resolvedFile?_eq hget hmem]
    rfl
  refine ⟨⟨_, hshown⟩, division.stands_of_outside hpieces,
    hkept.pathname_mem_flattened hget hrequires, fun hplain => ?_⟩
  rw [hshown, listedDependency_eq hid hplain]

/-- What is required at one place of a file stands beside its pathname. -/
theorem mem_zip_of_childAt? {file required : CompiledFile} {place : Nat} {requested : Text}
    (hrequested : file.dependencies[place]? = some requested)
    (hrequired : childAt? file place = some required) :
    (requested, .module required) ∈ file.dependencies.zip file.children := by
  have hchild := getElem?_of_childAt? hrequired
  have hplace : (file.dependencies.zip file.children)[place]? =
      some (requested, .module required) :=
    List.getElem?_zip_eq_some.2 ⟨hrequested, hchild⟩
  exact List.mem_of_getElem? hplace

/-- A file with a header that requires another one. -/
def requiringFiles : Table Text := .ofList [
  ("/app/main.js", "define(function (require) \x7b require('./util'); \x7d);"),
  ("/app/util.js", "")]

/-- What the compiler finds in that file: one id behind the header, for the other file. -/
theorem exec_requiringFiles :
    ∃ result after required,
      ((ofFiles .standard requiringFiles .empty).compile "#app/main").exec
        ((ofFiles .standard requiringFiles .empty).after []) = (.ok (some result), after) ∧
      childAt? result.file 0 = some required ∧
      scan result.file.source = [⟨.require, 37, 46, "#app/util"⟩] ∧
      headerSpan? Config.standard.headerCallee (stampedSource .standard result.file) =
        some (0, 15) ∧
      result.file.dependencies = ["/app/util.js".toList] ∧
      required.pathname = "/app/util.js".toList := by
  have hwalk : (do
      let result ← (((ofFiles .standard requiringFiles .empty).compile "#app/main").exec
        ((ofFiles .standard requiringFiles .empty).after [])).1.toOption.join
      let required ← childAt? result.file 0
      some (scan result.file.source,
        headerSpan? Config.standard.headerCallee (stampedSource .standard result.file),
        result.file.dependencies, required.pathname)) =
      some ([⟨.require, 37, 46, "#app/util"⟩], some (0, 15), ["/app/util.js".toList],
        "/app/util.js".toList) := by
    decide +kernel
  simp only [Option.bind_eq_bind, Option.bind_eq_some_iff, Option.some.injEq, Prod.mk.injEq]
    at hwalk
  obtain ⟨result, hresult, required, hrequired, hvalues⟩ := hwalk
  obtain ⟨after, hexec⟩ := exec_eq_of_toOption_join hresult
  exact ⟨result, after, required, hexec, hrequired, hvalues⟩

/-- The id stands behind the header, and in the header the same text is listed. -/
theorem stamps_agree_requiringFiles :
    Config.standard.validate = .ok .standard ∧
    ∃ result after,
      ((ofFiles .standard requiringFiles .empty).compile "#app/main").exec
        ((ofFiles .standard requiringFiles .empty).after []) = (.ok (some result), after) ∧
      (headerSpan? Config.standard.headerCallee
        (stampedSource .standard result.file)).isSome = true ∧
      ∃ (division : Division .standard result.file) (piece : Piece) (required : CompiledFile),
        division.pieces = [piece] ∧ piece.found.id = "#app/util" ∧
        required.pathname = "/app/util.js" ∧
        division.Stands [] piece [] (stampedText .standard result.file piece.found) ∧
        listedDependency .standard required.pathname =
          stampedText .standard result.file piece.found := by
  have hconfig : Config.standard.validate = .ok .standard := by decide
  obtain ⟨result, after, required, hexec, hrequired, hscan, hspan, hdependencies, hpathname⟩ :=
    exec_requiringFiles
  have hheader : (headerSpan? Config.standard.headerCallee
      (stampedSource .standard result.file)).isSome = true := by
    rw [hspan]
    rfl
  obtain ⟨division, comments, -, hpieces⟩ :=
    stamps_agree hconfig requiringFiles .empty [] "#app/main" result after hexec hheader
  have hfound := division.found_eq
  rw [hscan, List.map_eq_singleton_iff] at hfound
  obtain ⟨piece, hpiece, hid⟩ := hfound
  have hrequested : ModuleId.toPathname Config.standard.base piece.found.id = "/app/util.js" := by
    rw [hid]
    decide +kernel
  have hmem : ("/app/util.js".toList, .module required) ∈
      result.file.dependencies.zip result.file.children :=
    mem_zip_of_childAt? (by rw [hdependencies]; rfl) hrequired
  obtain ⟨-, hstands, -, hlisted⟩ := hpieces [] piece [] hpiece (by rw [hid]; rfl)
    (by rw [hid]; decide) required (hrequested ▸ hmem)
  -- the header ends at byte 15 and the only id starts at byte 37
  have houtside : division.Outside [] piece := by
    have hstop := division.span_eq
    rw [hspan, Option.some.injEq, Prod.mk.injEq] at hstop
    obtain ⟨hstart, -⟩ : Positioned 0 [piece] := hpiece ▸ division.positioned
    have hgap : 37 = 0 + Text.byteLength piece.gap := by rw [← hstart, hid]
    right
    show _ ≤ Text.byteLength piece.gap
    omega
  refine ⟨hconfig, result, after, hexec, hheader, division, piece, required, hpiece, ?_, hpathname,
    hstands houtside, hlisted (.inl ?_)⟩
  · rw [hid]
  · rw [hpathname]
    decide +kernel

/-- A file that requires one by an id with a query, and one with a range mark in its pathname. -/
def queriedFiles : Table Text := .ofList [
  ("/main.js",
    "define(function () \x7b require('#app/util?x=1'); require('#x/1.0.0/y/2.0.0+/z'); \x7d);"),
  ("/app/util.js", ""),
  ("/x/1.0.0/y/2.0.0+/z.js", "")]

/-- An id with a query has no stamp, and a range mark shows in the source but not in the header. -/
theorem stamps_disagree_queriedFiles :
    Config.standard.validate = .ok .standard ∧
    ∃ result after,
      ((ofFiles .standard queriedFiles .empty).compile "#main").exec
        ((ofFiles .standard queriedFiles .empty).after []) = (.ok (some result), after) ∧
      headerSpan? Config.standard.headerCallee (stampedSource .standard result.file) =
        some (0, 15) ∧
      (scan result.file.source).length = 2 ∧
      ∀ found ∈ scan result.file.source, found.kind.isSync = true ∧ 15 ≤ found.start ∧
        ∃ required, (ModuleId.toPathname Config.standard.base found.id, .module required) ∈
            result.file.dependencies.zip result.file.children ∧
          stampedText .standard result.file found ≠
            listedDependency .standard required.pathname := by
  have hwalk : (do
      let result ← (((ofFiles .standard queriedFiles .empty).compile "#main").exec
        ((ofFiles .standard queriedFiles .empty).after [])).1.toOption.join
      let first ← childAt? result.file 0
      let second ← childAt? result.file 1
      some (scan result.file.source,
        headerSpan? Config.standard.headerCallee (stampedSource .standard result.file),
        [result.file.dependencies, [first.pathname, second.pathname],
          (scan result.file.source).map (stampedText .standard result.file)])) =
      some ([⟨.require, 30, 43, "#app/util?x=1"⟩, ⟨.require, 56, 75, "#x/1.0.0/y/2.0.0+/z"⟩],
        some (0, 15), [["/app/util.js", "/x/1.0.0/y/2.0.0+/z.js"],
          ["/app/util.js", "/x/1.0.0/y/2.0.0+/z.js"],
          ["#app/util?x=1", "#x/1.0.0/y/2.0.0+/z?t=#ts(\"/x/1.0.0/y/2.0.0+/z.js\")"]].map
            (List.map String.toList)) := by
    decide +kernel
  simp only [Option.bind_eq_bind, Option.bind_eq_some_iff, Option.some.injEq, Prod.mk.injEq]
    at hwalk
  obtain ⟨result, hresult, first, hfirst, second, hsecond, hscan, hspan, htexts⟩ := hwalk
  obtain ⟨after, hexec⟩ := exec_eq_of_toOption_join hresult
  simp only [hscan, List.map_cons, List.map_nil, List.cons.injEq] at htexts
  obtain ⟨hdependencies, ⟨hfirstPath, hsecondPath, -⟩, ⟨hqueried, hranged, -⟩, -⟩ := htexts
  refine ⟨by decide, result, after, hexec, hspan, by rw [hscan]; rfl, ?_⟩
  rw [hscan]
  intro found hmem
  -- the first id keeps its query and gets no stamp, the second one gets a stamp with the range mark
  -- that the header takes off
  rcases List.mem_pair.1 hmem with rfl | rfl
  · refine ⟨rfl, by decide, first, mem_zip_of_childAt? ?_ hfirst, ?_⟩
    · rw [hdependencies]
      decide +kernel
    · rw [hqueried, hfirstPath]
      decide +kernel
  · refine ⟨rfl, by decide, second, mem_zip_of_childAt? ?_ hsecond, ?_⟩
    · rw [hdependencies]
      decide +kernel
    · rw [hranged, hsecondPath]
      decide +kernel

end Compiler

end ModuleCompiler
