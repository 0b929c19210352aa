import ModuleCompiler.Proofs.Script.Scanning
import ModuleCompiler.Proofs.Script.Slicing

/-!
# The spans of ids

The ids of a source are found in its masked view, and the bytes they take there are used to cut the
source. Quotes are seen only where they are written, so each id stands between two quotes of the
source, and a quote that closes one id does not belong to the next. So the spans start and end at
characters of the source, a byte lies between each and the next, and texts can be put in the place
of any of them.

Where an id stands is said by `IdSpan.StandsIn`, with one fact in each field, and `exists_standsIn`
finds such a place for every id of a scan. `pairwise_scan` puts the spans one behind the other. Both
are read off the `Spread` of the ids over the cells, and `splice?_scan` needs nothing else of the
scan.
-/

namespace ModuleCompiler.Script

variable {respell : Text → Text} {source : Text} {cells : List Cell} {ids : List IdSpan}
  {respelled : List (Char × Text)} {found next : IdSpan}

/-! ## Where an id stands -/

/-- The id stands in the source behind `before` and a quote, on one line, and in front of a quote
and `after`. Its span is that of its text. -/
structure IdSpan.StandsIn (found : IdSpan) (source before : Text) (opening closing : Char)
    (after : Text) : Prop where
  eq : source = before ++ opening :: (found.id ++ closing :: after)
  opening_isQuote : isQuote opening = true
  closing_isQuote : isQuote closing = true
  line_not_mem : '\n' ∉ found.id
  start_eq : found.start = Text.byteLength (before ++ [opening])
  stop_eq : found.stop = found.start + Text.byteLength found.id

namespace IdSpan.StandsIn

variable {before after : Text} {opening closing : Char}

theorem slice?_eq (h : found.StandsIn source before opening closing after) :
    Text.slice? found.start found.stop source = some found.id := by
  refine Text.slice?_eq_some_iff.2 ⟨before ++ [opening], closing :: after, ?_, h.start_eq.symm,
    h.stop_eq.symm⟩
  rw [h.eq, List.append_cons]

end IdSpan.StandsIn

/-- Each of the ids spread over some cells is what is written between two quotes there. -/
theorem Spread.exists_ofRun (h : Spread respell cells ids respelled) (hfound : found ∈ ids) :
    ∃ before opening run closing after, cells = before ++ opening :: (run ++ closing :: after) ∧
      isQuote opening.seen = true ∧ isQuote closing.seen = true ∧
      (∀ cell ∈ run, IsInner cell.seen) ∧ found = IdSpan.ofRun found.kind run closing := by
  induction h with
  | done => simp at hfound
  | @found kind before opening closing run after ids respelled hopening hclosing hrun tail ih =>
    rcases List.mem_cons.1 hfound with rfl | hmem
    · exact ⟨before, opening, run, closing, after, rfl, hopening, hclosing, hrun, rfl⟩
    · obtain ⟨more, opening', run', closing', after', heq, hid⟩ := ih hmem
      refine ⟨before ++ opening :: (run ++ more), opening', run', closing', after', ?_, hid⟩
      rw [heq]
      simp

/-- An id that is found stands in the source. -/
theorem exists_standsIn (h : found ∈ scan source) :
    ∃ before opening closing after, found.StandsIn source before opening closing after := by
  obtain ⟨_, hspread, -⟩ := exists_respelled_scan id source
  obtain ⟨before, opening, run, closing, after, hcells, hopening, hclosing, hrun, hfound⟩ :=
    hspread.exists_ofRun h
  have haligned := aligned_cells source
  have hgapless := gapless_cells source
  rw [hcells] at haligned hgapless
  -- quotes are written as they are seen, so the bytes of the cells are bytes of the source
  obtain ⟨hopened, hclosed, hstart, hstop⟩ :=
    span_ofRun found.kind haligned hgapless hopening hclosing
  rw [← hfound] at hstart hstop
  have hid : found.id = run.flatMap Cell.written := by rw [hfound]; rfl
  refine ⟨before.flatMap Cell.written, opening.seen, closing.seen, after.flatMap Cell.written, ?_,
    hopening, hclosing, ?_, ?_, ?_⟩
  · rw [← flatMap_written_cells source, hcells, hid]
    simp [hopened, hclosed]
  · rw [hid, List.mem_flatMap]
    rintro ⟨cell, hmem, hline⟩
    have hcell : cell ∈ Script.cells source := by
      rw [hcells]
      simp [hmem]
    exact (hrun cell hmem).2.1 ((line_mem_written_iff hcell).1 hline)
  · rw [hstart, List.flatMap_append, List.flatMap_singleton, hopened, Nat.zero_add]
  · rw [hstop, hid]

/-! ## Neighbours -/

theorem Gapless.offset_le {cell : Cell} {rest : List Cell} (h : Gapless (cell :: rest)) :
    ∀ other ∈ cell :: rest, cell.offset ≤ other.offset := by
  induction rest generalizing cell with
  | nil => simp
  | cons next rest ih =>
    obtain ⟨hnext, hrest⟩ := List.isChain_cons_cons.1 h
    refine List.forall_mem_cons.2 ⟨Nat.le_refl _, fun other hmem => ?_⟩
    have hother := ih hrest other hmem
    omega

/-- Of ids spread over some cells each ends in front of its closing quote, and the next one starts
behind that. -/
theorem Spread.pairwise (h : Spread respell cells ids respelled) (hgapless : Gapless cells) :
    ids.Pairwise fun found next => found.stop + 1 ≤ next.start := by
  induction h with
  | done => exact .nil
  | @found kind before opening closing run after ids respelled _ _ _ tail ih =>
    rw [List.append_cons, ← List.append_assoc] at hgapless
    have htail : Gapless (closing :: after) := hgapless.right_of_append
    exact List.pairwise_cons.2 ⟨tail.lt_start htail htail.offset_le, ih htail⟩

theorem pairwise_scan (source : Text) :
    (scan source).Pairwise fun found next => found.stop + 1 ≤ next.start := by
  obtain ⟨_, hspread, -⟩ := exists_respelled_scan id source
  exact hspread.pairwise (gapless_cells source)

/-- An id that starts behind another starts behind its closing quote. -/
theorem stop_lt_start_of_mem_scan (hfound : found ∈ scan source) (hnext : next ∈ scan source)
    (h : found.start < next.start) : found.stop < next.start := by
  obtain ⟨front, back, hscan⟩ := List.append_of_mem hfound
  have hpairwise := pairwise_scan source
  rw [hscan] at hnext hpairwise
  obtain ⟨-, hback, hacross⟩ := List.pairwise_append.1 hpairwise
  rcases List.mem_append.1 hnext with hmem | hmem
  · -- one in front of it starts before it
    exfalso
    obtain ⟨before, opening, closing, after, hstands⟩ : ∃ before opening closing after,
        next.StandsIn source before opening closing after := exists_standsIn (by simp [hscan, hmem])
    have hbehind := hacross next hmem found List.mem_cons_self
    rw [hstands.stop_eq] at hbehind
    omega
  · rcases List.mem_cons.1 hmem with rfl | hmem
    · exact absurd h (Nat.lt_irrefl _)
    · exact (List.pairwise_cons.1 hback).1 next hmem

/-! ## Edits at the ids -/

/-- Any texts can be put in the place of any of the ids. -/
theorem splice?_scan {edits : List Edit} (hstarts : (edits.map Edit.start).Nodup)
    (hspans : ∀ edit ∈ edits, ∃ found ∈ scan source,
      edit.start = found.start ∧ edit.stop = found.stop) :
    splice? source edits = some (splice source edits) := by
  refine splice?_eq_some (fun edit hmem => ?_) ?_
  · obtain ⟨found, hfound, hstart, hstop⟩ := hspans edit hmem
    obtain ⟨before, opening, closing, after, hstands⟩ := exists_standsIn hfound
    rw [hstart, hstop]
    exact Text.exists_slice?_eq_some_iff.1 ⟨found.id, hstands.slice?_eq⟩
  · -- in order, an edit that starts later is at an id that comes later
    have hdistinct : (inOrder edits).Pairwise fun edit next => edit.start ≠ next.start :=
      List.pairwise_map.1 (((inOrder_perm edits).map Edit.start).nodup_iff.2 hstarts)
    refine ((pairwise_inOrder edits).and hdistinct).imp_of_mem ?_
    rintro edit next hedit hnext ⟨hle, hne⟩
    obtain ⟨found, hfound, hstart, hstop⟩ := hspans edit ((inOrder_perm edits).mem_iff.1 hedit)
    obtain ⟨other, hother, hstart', -⟩ := hspans next ((inOrder_perm edits).mem_iff.1 hnext)
    have hlt := stop_lt_start_of_mem_scan hfound hother (by omega)
    omega

/-- Each id that is found stands in the source on one line and between two quotes, at the bytes of
its span, so its text can be cut out there. The spans come one behind the other, with a byte or more
between them. Any texts can be put in the place of any of the ids, in whatever order. -/
theorem scan_spans_safe (source : Text) :
    (∀ found ∈ scan source,
        (∃ before opening closing after, found.StandsIn source before opening closing after) ∧
          Text.slice? found.start found.stop source = some found.id) ∧
      ((scan source).Pairwise fun found next => found.stop + 1 ≤ next.start) ∧
      ∀ edits : List Edit, (edits.map Edit.start).Nodup →
        (∀ edit ∈ edits, ∃ found ∈ scan source,
          edit.start = found.start ∧ edit.stop = found.stop) →
        splice? source edits = some (splice source edits) := by
  refine ⟨fun found hfound => ?_, pairwise_scan source, fun _ => splice?_scan⟩
  obtain ⟨before, opening, closing, after, hstands⟩ := exists_standsIn hfound
  exact ⟨⟨before, opening, closing, after, hstands⟩, hstands.slice?_eq⟩

/-- A source with two bytes for a character in a comment and in an id, with a quote in a comment and
with an empty id. -/
def wideCharacters : Text :=
  "/* é' */ require.async(['a', \"\"]); require('b/é')"

/-- Texts for its last id and its empty one. -/
def wideEdits : List Edit :=
  [⟨45, 49, "#ü"⟩, ⟨31, 31, "c"⟩]

/-- The ids are cut out at their bytes, and two of them replaced, the last one first. -/
theorem scan_spans_safe_wideCharacters :
    (scan wideCharacters).map IdSpan.id = ["a", "", "b/é"] ∧
      (wideEdits.map Edit.start).Nodup ∧
      (∀ edit ∈ wideEdits, ∃ found ∈ scan wideCharacters,
        edit.start = found.start ∧ edit.stop = found.stop) ∧
      splice? wideCharacters wideEdits = some (splice wideCharacters wideEdits) ∧
      splice wideCharacters wideEdits = "/* é' */ require.async(['a', \"c\"]); require('#ü')" := by
  have hstarts : (wideEdits.map Edit.start).Nodup := by decide
  have hspans : ∀ edit ∈ wideEdits, ∃ found ∈ scan wideCharacters,
      edit.start = found.start ∧ edit.stop = found.stop := by decide +kernel
  exact ⟨by decide +kernel, hstarts, hspans,
    (scan_spans_safe wideCharacters).2.2 wideEdits hstarts hspans, by decide +kernel⟩

end ModuleCompiler.Script
