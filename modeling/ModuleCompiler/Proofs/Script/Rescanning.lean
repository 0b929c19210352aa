import ModuleCompiler.Proofs.Script.Scanning
import ModuleCompiler.Proofs.Script.Settling

/-!
# Settled sources scanned again

A settled source is read once more when its module is written out, and the references that are found
then must be those that were settled. They are if no id in the source has a backslash and every
settled one can stand between any two quotes: then the new ids change neither what is a comment or a
string nor where calls start and end.

Settling is a respelling, in the sense of `Proofs.Script.Scanning`, because each new id depends on
the old one alone (`exists_respell_of_settle`). So `settle_stable` has the view of the settled
source, and with it the ids in it, from `exists_respelled_scan`. A second settling then has nothing
to do, since a settled id is settled in every file (`settleId_of_settleId`).
-/

namespace ModuleCompiler.Script

variable {scope : Scope} {base pathname source : Text} {settled : SettledSource}

/-- A settled id is settled in every file. -/
theorem settleId_of_settleId {id settledId : Text}
    (h : settleId scope base pathname id = .ok settledId) (scope' : Scope)
    (base' pathname' : Text) : settleId scope' base' pathname' settledId = .ok settledId := by
  rw [settleId, if_pos (canonical_of_settleId h)]

/-- A source whose ids are settled settles to itself. -/
theorem settle_of_settled (h : ∀ found ∈ scan source,
      settleId scope base pathname found.id = .ok found.id) :
    settle scope base pathname source = .ok ⟨source, (scan source).map IdSpan.reference⟩ := by
  have hids : (scan source).mapM (fun found => settleId scope base pathname found.id) =
      .ok ((scan source).map IdSpan.id) :=
    mapM_eq_ok_iff.2 (List.forall₂_map_right_iff.2 (List.forall₂_same.2 h))
  have hedits : (scan source).filterMap (fun found => found.edit? found.id) = [] :=
    List.filterMap_eq_nil_iff.2 fun found _ => by simp [IdSpan.edit?]
  simp only [settle, hids, bind, Except.bind, pure, Except.pure, List.zip_eq_zipWith,
    List.zipWith_map_right, List.zipWith_self, List.filterMap_map,
    List.map_map]
  change Except.ok (SettledSource.mk
    (splice source ((scan source).filterMap fun found => found.edit? found.id)) _) = _
  rw [hedits]
  rfl

/-- Settling spells each id in another way, which depends on the id alone. -/
theorem exists_respell_of_settle (h : settle scope base pathname source = .ok settled) :
    ∃ respell : Text → Text,
      (∀ found ∈ scan source, settleId scope base pathname found.id = .ok (respell found.id)) ∧
      settled.references = (scan source).map (fun found => ⟨found.kind, respell found.id⟩) ∧
      settled.source = splice source
        ((scan source).filterMap fun found => found.edit? (respell found.id)) := by
  obtain ⟨ids, hids, hsource, hreferences⟩ := exists_of_settle h
  let respell (id : Text) : Text := (settleId scope base pathname id).toOption.getD id
  have hrespell : ids = (scan source).map fun found => respell found.id := by
    have hanswers : List.Forall₂ (fun found id => respell found.id = id) (scan source) ids :=
      hids.imp fun found id hid => by simp [respell, hid, Except.toOption]
    rw [← List.forall₂_map_left_iff, List.forall₂_eq_eq_eq] at hanswers
    exact hanswers.symm
  rw [hrespell] at hids hsource hreferences
  rw [List.zip_eq_zipWith, List.zipWith_map_right, List.zipWith_self] at hsource hreferences
  rw [List.filterMap_map] at hsource
  rw [List.map_map] at hreferences
  exact ⟨respell, List.forall₂_same.1 (List.forall₂_map_right_iff.1 hids), hreferences, hsource⟩

/-- Splicing other ids in leaves what stands between them. -/
theorem splice_respelled {respell : Text → Text} {pieces : List Piece} {tail : Text}
    (hpositioned : Positioned 0 pieces) :
    splice (assembled IdSpan.id pieces tail)
        ((pieces.map Piece.found).filterMap fun found => found.edit? (respell found.id)) =
      assembled (fun found => respell found.id) pieces tail := by
  rw [splice_assembled (fun found e => IdSpan.span_of_edit?) hpositioned]
  exact assembled_congr (fun piece _ => IdSpan.text_edit? _ _) tail

/-- Take a source that settles, in which no id has a backslash, with settled ids that can stand
between any two quotes. Scanned again, the settled source has the references that were answered.
Settled again, in any file, it stays as it is. And it is the source with other ids at their bytes:
what stands between them is unchanged. -/
theorem settle_stable (h : settle scope base pathname source = .ok settled)
    (hescape : ∀ found ∈ scan source, '\\' ∉ found.id)
    (hquotable : ∀ reference ∈ settled.references, Quotable reference.id) :
    (scan settled.source).map IdSpan.reference = settled.references ∧
      (∀ scope' base' pathname',
        settle scope' base' pathname' settled.source = .ok settled) ∧
      ∃ pieces tail write, pieces.map Piece.found = scan source ∧ Positioned 0 pieces ∧
        source = assembled IdSpan.id pieces tail ∧
        settled.source = assembled write pieces tail ∧
        settled.references = (scan source).map fun found => ⟨found.kind, write found⟩ := by
  obtain ⟨respell, hsettled, hreferences, hsource⟩ := exists_respell_of_settle h
  have hids : ∀ found ∈ scan source, Quotable (respell found.id) := by
    intro found hmem
    refine hquotable ⟨found.kind, respell found.id⟩ ?_
    rw [hreferences]
    exact List.mem_map_of_mem hmem
  obtain ⟨respelled, hspread, hrescan⟩ := exists_respelled_scan respell source
  obtain ⟨pieces, tail, hpieces, htext, hrespelled, hpositioned⟩ :=
    hspread.exists_pieces (aligned_cells source) (gapless_cells source)
  rw [flatMap_written_cells] at htext
  have hwritten : settled.source = assembled (fun found => respell found.id) pieces tail := by
    rw [hsource, ← hpieces, htext]
    exact splice_respelled hpositioned
  -- the view of the settled source is that of the source with the other ids
  have hview : view settled.source = respelled := by
    have hsource : view source = [] ++ (cells source).map Cell.shown :=
      (map_shown_cells source).symm
    have hsame := hspread.view_eq hescape hids hsource
    rwa [List.nil_append, hrespelled, ← hwritten] at hsame
  have hscan : (scan settled.source).map IdSpan.reference = settled.references := by
    rw [hreferences, hrescan hids _ hview]
  refine ⟨hscan, fun scope' base' pathname' => ?_, pieces, tail, fun found => respell found.id,
    hpieces, hpositioned, htext, hwritten, hreferences⟩
  -- each id found in the settled source is settled
  have hagain : ∀ found ∈ scan settled.source,
      settleId scope' base' pathname' found.id = .ok found.id := by
    intro found hmem
    have hreference : found.reference ∈ settled.references := by
      rw [← hscan]
      exact List.mem_map_of_mem hmem
    rw [hreferences] at hreference
    obtain ⟨first, hfirst, heq⟩ := List.mem_map.1 hreference
    rw [show found.id = respell first.id from (congrArg Reference.id heq).symm]
    exact settleId_of_settleId (hsettled first hfirst) scope' base' pathname'
  rw [settle_of_settled hagain, hscan]

/-- A source with a call in a string, an id around a comment between quotes of two kinds, and a
comment with a quote. -/
def mixedQuotes : Text :=
  "\"require('./a')\"//'\nrequire(\"./y/* c */../../z');\nseajs.use(['x',\"$\"])"

/-- What it is in a directory `lib`, under a scope that explains `x`. -/
def settledQuotes : SettledSource where
  source :=
    "\"require('#lib/a')\"//'\nrequire(\"#lib/z');\nseajs.use(['#lib/x/1.0.0/',\"$\"])"
  references :=
    [⟨.require, "#lib/a"⟩, ⟨.require, "#lib/z"⟩, ⟨.use, "#lib/x/1.0.0/"⟩, ⟨.use, "$"⟩]

theorem settle_stable_mixedQuotes :
    settle ⟨.ofList [("x", "#lib/x/1.0.0/")], .empty, none⟩ "/app/" "/app/lib/main.js" mixedQuotes =
        .ok settledQuotes ∧
      (∀ found ∈ scan mixedQuotes, '\\' ∉ found.id) ∧
      (∀ reference ∈ settledQuotes.references, Quotable reference.id) ∧
      (scan settledQuotes.source).map IdSpan.reference = settledQuotes.references ∧
      (∀ scope base pathname,
        settle scope base pathname settledQuotes.source = .ok settledQuotes) ∧
      ∃ pieces tail write, pieces.map Piece.found = scan mixedQuotes ∧ Positioned 0 pieces ∧
        mixedQuotes = assembled IdSpan.id pieces tail ∧
        settledQuotes.source = assembled write pieces tail ∧
        settledQuotes.references =
          (scan mixedQuotes).map fun found => ⟨found.kind, write found⟩ := by
  have hsettle : settle ⟨.ofList [("x", "#lib/x/1.0.0/")], .empty, none⟩ "/app/"
      "/app/lib/main.js" mixedQuotes = .ok settledQuotes := by decide +kernel
  have hescape : ∀ found ∈ scan mixedQuotes, '\\' ∉ found.id := by decide +kernel
  have hquotable : ∀ reference ∈ settledQuotes.references, Quotable reference.id := by
    decide +kernel
  exact ⟨hsettle, hescape, hquotable, settle_stable hsettle hescape hquotable⟩

end ModuleCompiler.Script
