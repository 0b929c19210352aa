import ModuleCompiler.Proofs.Script.Layout
import ModuleCompiler.Proofs.Script.Recognition

/-!
# Ids found in their places

The scan of a source finds quoted pieces of the masked view. Quotes are never seen in a comment, so
each piece found is a piece of the source, at the bytes that the scan answers, and no two of them
overlap. In a view that shows other ids between the same quotes, the scan finds those.

Both facts come from `Spread`: ids stand in some cells one behind the other, each between two
quotes, and something definite is shown when they are spelled in another way. It is shown for one
argument (`spread_quotedRuns`) and then, by induction over the search, for all calls in turn
(`Searched.exists_respelled`). What is shown then is the view of what is written then
(`Spread.view_eq`), and a source splits at its ids (`exists_pieces_scan`).
-/

namespace ModuleCompiler.Script

variable {cells after : List Cell} {respell : Text → Text}

/-! ## Ids between quotes -/

/-- Cells that show a text as it is written have written it. -/
theorem flatMap_written_of_map_shown {text : Text} (h : cells.map Cell.shown = asWritten text) :
    cells.flatMap Cell.written = text := by
  have hwritten := congrArg (List.flatMap Prod.snd) h
  rwa [List.flatMap_map, flatMap_snd_asWritten] at hwritten

/-- What is seen of such cells are characters of the text. -/
theorem seen_of_map_shown {text : Text} (h : cells.map Cell.shown = asWritten text) :
    ∀ cell ∈ cells, cell.seen ∈ text := by
  intro cell hmem
  have hshown : cell.shown ∈ asWritten text := by
    rw [← h]
    exact List.mem_map_of_mem hmem
  obtain ⟨c, hc, heq⟩ := List.mem_map.1 hshown
  rwa [show cell.seen = c from (congrArg Prod.fst heq).symm]

/-- Ids stand in the cells one behind the other, each between two quotes, and `respelled` is what is
shown when each is spelled in another way. -/
inductive Spread (respell : Text → Text) : List Cell → List IdSpan → List (Char × Text) → Prop
  | done (cells : List Cell) : Spread respell cells [] (cells.map Cell.shown)
  | found (kind : CallKind) (before : List Cell) {opening closing : Cell} (run : List Cell)
      {after : List Cell} {ids : List IdSpan} {respelled : List (Char × Text)}
      (hopening : isQuote opening.seen = true) (hclosing : isQuote closing.seen = true)
      (hrun : ∀ cell ∈ run, IsInner cell.seen)
      (tail : Spread respell (closing :: after) ids respelled) :
      Spread respell (before ++ opening :: (run ++ closing :: after))
        (IdSpan.ofRun kind run closing :: ids)
        (before.map Cell.shown ++
          opening.shown :: (asWritten (respell (run.flatMap Cell.written)) ++ respelled))

namespace Spread

variable {ids more : List IdSpan} {respelled respelled' : List (Char × Text)}

/-- Cells in front of the ids are shown as they are. -/
theorem append_left (h : Spread respell cells ids respelled) (front : List Cell) :
    Spread respell (front ++ cells) ids (front.map Cell.shown ++ respelled) := by
  cases h with
  | done =>
    rw [← List.map_append]
    exact .done _
  | found kind before run hopening hclosing hrun tail =>
    rw [← List.append_assoc, ← List.append_assoc, ← List.map_append]
    exact .found kind _ run hopening hclosing hrun tail

/-- Ids that are spread over two runs of cells are spread over both together. -/
theorem append (h : Spread respell cells ids respelled)
    (hmore : Spread respell after more respelled') :
    Spread respell (cells ++ after) (ids ++ more) (respelled ++ respelled') := by
  induction h with
  | done cells => exact hmore.append_left cells
  | found kind before run hopening hclosing hrun _ ih =>
    have hfound := Spread.found kind before run hopening hclosing hrun ih
    simpa using hfound

/-- What is shown first is not respelled. -/
theorem head?_eq (h : Spread respell cells ids respelled) :
    respelled.head? = (cells.map Cell.shown).head? := by
  cases h with
  | done => rfl
  | found kind before => cases before <;> rfl

/-- Spelled in another way, by texts that can be written as ids, they leave a similar view. -/
theorem similar {other : List Cell} (h : Spread respell cells ids respelled)
    (hquotable : ∀ found ∈ ids, Quotable (respell found.id))
    (hother : other.map Cell.shown = respelled) : Similar cells other := by
  induction h generalizing other with
  | done cells => exact .of_map_shown hother.symm
  | found kind before run hopening hclosing hrun tail ih =>
    obtain ⟨hnew, hquotable⟩ := List.forall_mem_cons.1 hquotable
    obtain ⟨before', rest', rfl, hbefore, hrest⟩ := List.map_eq_append_iff.1 hother
    obtain ⟨opening', inside', rfl, hopened, hinside⟩ := List.map_eq_cons_iff.1 hrest
    obtain ⟨run', behind', rfl, hrun', hbehind⟩ := List.map_eq_append_iff.1 hinside
    -- the tail begins with the closing quote, whatever is respelled behind it
    have hhead := tail.head?_eq
    rw [← hbehind] at hhead
    obtain ⟨closing', after', rfl⟩ : ∃ closing' after', behind' = closing' :: after' := by
      rcases behind' with _ | ⟨closing', after'⟩
      · simp at hhead
      · exact ⟨closing', after', rfl⟩
    have hseen : closing'.seen = _ := congrArg Prod.fst (Option.some.inj hhead)
    refine (Similar.of_map_shown hbefore.symm).append (.quoted ?_ hopening hclosing ?_ hrun ?_
      (ih hquotable hbehind))
    · exact (congrArg Prod.fst hopened).symm
    · rw [hseen]
      exact hclosing
    · intro cell hmem
      exact hnew.inner _ (seen_of_map_shown hrun' cell hmem)

/-- If the ids have no backslash, what is shown is the view of what is written then. -/
theorem view_eq (h : Spread respell cells ids respelled)
    (hescape : ∀ found ∈ ids, '\\' ∉ found.id)
    (hquotable : ∀ found ∈ ids, Quotable (respell found.id)) {source : Text}
    {front : List (Char × Text)} (hview : view source = front ++ cells.map Cell.shown) :
    view ((front ++ respelled).flatMap Prod.snd) = front ++ respelled := by
  induction h generalizing source front with
  | done cells =>
    rw [← hview, flatMap_snd_view]
  | @found kind before opening closing run after ids respelled hopening hclosing hrun tail ih =>
    obtain ⟨hold, hescape⟩ := List.forall_mem_cons.1 hescape
    obtain ⟨hnew, hquotable⟩ := List.forall_mem_cons.1 hquotable
    have hregroup : front ++ (before ++ opening :: (run ++ closing :: after)).map Cell.shown =
        (front ++ before.map Cell.shown) ++ opening.shown ::
          (run.map Cell.shown ++ closing.shown :: after.map Cell.shown) := by simp
    rw [hregroup] at hview
    have hinner : ∀ shown ∈ run.map Cell.shown, IsInner shown.1 := by
      intro shown hmem
      obtain ⟨cell, hcell, rfl⟩ := List.mem_map.1 hmem
      exact hrun cell hcell
    have hwritten : (run.map Cell.shown).flatMap Prod.snd = run.flatMap Cell.written := by
      rw [List.flatMap_map]
      rfl
    -- the first id is spelled anew, and the others come behind it
    have hfirst := view_respell hview hopening hclosing hinner (by rwa [hwritten]) hnew
    have hfront : view _ = (front ++ before.map Cell.shown ++ opening.shown ::
        asWritten (respell (run.flatMap Cell.written))) ++ (closing :: after).map Cell.shown :=
      hfirst.trans (by simp [IdSpan.ofRun])
    simpa using ih hescape hquotable hfront

end Spread

/-! ## Arguments -/

/-- What an argument shows when each of its quoted pieces is spelled in another way, where `run` is
the piece that has begun. -/
def respelledRuns (respell : Text → Text) : Option (List Cell) → List Cell → List (Char × Text)
  | none, [] => []
  | some run, [] => run.map Cell.shown
  | none, cell :: rest =>
    cell.shown :: respelledRuns respell (if isQuote cell.seen then some [] else none) rest
  | some run, cell :: rest =>
    if isQuote cell.seen then
      asWritten (respell (run.flatMap Cell.written)) ++
        cell.shown :: respelledRuns respell none rest
    else respelledRuns respell (some (run ++ [cell])) rest

/-- The pieces between quotes are spread over the cells, also where a piece has begun before. -/
theorem spread_quotedRuns (respell : Text → Text) (kind : CallKind)
    (hcells : ∀ cell ∈ cells, cell.seen ≠ '\n' ∧ cell.seen ≠ ')') :
    Spread respell cells ((quotedRuns none cells).map fun (run, closing) =>
        IdSpan.ofRun kind run closing) (respelledRuns respell none cells) ∧
      ∀ opening run, isQuote opening.seen = true → (∀ cell ∈ run, IsInner cell.seen) →
        Spread respell (opening :: (run ++ cells)) ((quotedRuns (some run) cells).map
            fun (run, closing) => IdSpan.ofRun kind run closing)
          (opening.shown :: respelledRuns respell (some run) cells) := by
  -- both at once: a quote leads from outside a piece to its inside, and back
  induction cells with
  | nil =>
    refine ⟨.done _, fun opening run _ _ => ?_⟩
    rw [List.append_nil]
    exact .done _
  | cons cell rest ih =>
    obtain ⟨hcell, hrest⟩ := List.forall_mem_cons.1 hcells
    obtain ⟨houtside, hinside⟩ := ih hrest
    constructor
    · rw [quotedRuns, respelledRuns]
      split
      · rename_i hquote
        exact hinside cell [] hquote (by simp)
      · exact houtside.append_left [cell]
    · intro opening run hopening hrun
      rw [quotedRuns, respelledRuns]
      split
      · rename_i hquote
        exact .found kind [] run hopening hquote hrun (houtside.append_left [cell])
      · rename_i hquote
        have hinner : IsInner cell.seen := ⟨Bool.eq_false_iff.2 hquote, hcell⟩
        have hrun' : ∀ other ∈ run ++ [cell], IsInner other.seen :=
          List.forall_mem_append.2 ⟨hrun, by simpa using hinner⟩
        have h := hinside opening (run ++ [cell]) hopening hrun'
        rwa [List.append_assoc, List.singleton_append] at h

/-- What is written in the pieces between quotes. -/
def writtenRuns (begun : Option (List Cell)) (cells : List Cell) : List Text :=
  (quotedRuns begun cells).map fun piece => piece.1.flatMap Cell.written

/-- Outside of a piece only a quote matters: it begins one. -/
theorem writtenRuns_none_cons (cell : Cell) (rest : List Cell) : writtenRuns none (cell :: rest) =
    writtenRuns (if isQuote cell.seen then some [] else none) rest := by
  rw [writtenRuns, quotedRuns]
  split <;> rfl

/-- Inside a piece every cell is taken, up to the quote that ends it. -/
theorem writtenRuns_some_cons (run : List Cell) (cell : Cell) (rest : List Cell) :
    writtenRuns (some run) (cell :: rest) =
      if isQuote cell.seen then run.flatMap Cell.written :: writtenRuns none rest
      else writtenRuns (some (run ++ [cell])) rest := by
  rw [writtenRuns, quotedRuns]
  split <;> rfl

/-- Cells without a quote are added to the piece that has begun. -/
theorem writtenRuns_append {run : List Cell} (hrun : ∀ cell ∈ run, isQuote cell.seen = false)
    (before rest : List Cell) :
    writtenRuns (some before) (run ++ rest) = writtenRuns (some (before ++ run)) rest := by
  induction run generalizing before with
  | nil => simp
  | cons cell run ih =>
    obtain ⟨hcell, hrun⟩ := List.forall_mem_cons.1 hrun
    rw [List.cons_append, writtenRuns_some_cons, hcell, if_neg Bool.false_ne_true, ih hrun,
      List.append_assoc, List.singleton_append]

/-- Cells that show what some cells without a quote do hold no piece, not even an unfinished one. -/
theorem writtenRuns_eq_nil_of_map_shown {run other : List Cell}
    (hrun : ∀ cell ∈ run, isQuote cell.seen = false)
    (hother : other.map Cell.shown = run.map Cell.shown) : writtenRuns (some []) other = [] := by
  have hquotes : ∀ cell ∈ other, isQuote cell.seen = false := by
    intro cell hmem
    have hshown : cell.shown ∈ run.map Cell.shown := by
      rw [← hother]
      exact List.mem_map_of_mem hmem
    obtain ⟨cell', hmem', heq⟩ := List.mem_map.1 hshown
    rw [← show cell'.seen = cell.seen from congrArg Prod.fst heq, hrun cell' hmem']
  have hfound := writtenRuns_append hquotes [] []
  rw [List.append_nil, List.nil_append] at hfound
  rw [hfound]
  rfl

/-- A text that can be written as an id is the first piece found where it is shown up to a quote. -/
theorem exists_writtenRuns_of_quotable {id : Text} {other : List Cell} {quote : Cell}
    {shown : List (Char × Text)} (hid : Quotable id) (hquote : isQuote quote.seen = true)
    (hother : other.map Cell.shown = asWritten id ++ quote.shown :: shown) :
    ∃ rest, rest.map Cell.shown = shown ∧
      writtenRuns (some []) other = id :: writtenRuns none rest := by
  obtain ⟨run, behind, rfl, hrun, hbehind⟩ := List.map_eq_append_iff.1 hother
  obtain ⟨closing, rest, rfl, hclosing, hrest⟩ := List.map_eq_cons_iff.1 hbehind
  have hseen : closing.seen = quote.seen := congrArg Prod.fst hclosing
  have hquotes : ∀ cell ∈ run, isQuote cell.seen = false := fun cell hmem =>
    (hid.inner _ (seen_of_map_shown hrun cell hmem)).1
  refine ⟨rest, hrest, ?_⟩
  rw [writtenRuns_append hquotes, List.nil_append, writtenRuns_some_cons, hseen, if_pos hquote,
    flatMap_written_of_map_shown hrun]

/-- Where the pieces between quotes are spelled in another way, the new ones are found. -/
theorem writtenRuns_of_respelled (respell : Text → Text) (cells : List Cell) :
    (∀ other, other.map Cell.shown = respelledRuns respell none cells →
        (∀ id ∈ writtenRuns none cells, Quotable (respell id)) →
          writtenRuns none other = (writtenRuns none cells).map respell) ∧
      ∀ run, (∀ cell ∈ run, isQuote cell.seen = false) →
        ∀ other, other.map Cell.shown = respelledRuns respell (some run) cells →
          (∀ id ∈ writtenRuns (some run) cells, Quotable (respell id)) →
            writtenRuns (some []) other = (writtenRuns (some run) cells).map respell := by
  -- both at once again; a piece that has begun before is not begun yet in the other cells
  induction cells with
  | nil =>
    refine ⟨fun other hother _ => ?_, fun run hrun other hother _ => ?_⟩
    · rw [List.map_eq_nil_iff.1 hother]
      rfl
    · exact writtenRuns_eq_nil_of_map_shown hrun hother
  | cons cell rest ih =>
    obtain ⟨houtside, hinside⟩ := ih
    constructor
    · intro other hother hquotable
      obtain ⟨cell', rest', rfl, hcell, hrest⟩ := List.map_eq_cons_iff.1 hother
      have hseen : cell'.seen = cell.seen := congrArg Prod.fst hcell
      rw [writtenRuns_none_cons] at hquotable
      rw [writtenRuns_none_cons, writtenRuns_none_cons, hseen]
      split at hquotable
      · rename_i hquote
        rw [if_pos hquote] at hrest ⊢
        exact hinside [] (List.forall_mem_nil _) rest' hrest hquotable
      · rename_i hquote
        rw [if_neg hquote] at hrest ⊢
        exact houtside rest' hrest hquotable
    · intro run hrun other hother hquotable
      rw [respelledRuns] at hother
      rw [writtenRuns_some_cons] at hquotable ⊢
      split at hquotable
      · -- the piece ends here, and is a new one in the other cells
        rename_i hquote
        rw [if_pos hquote] at hother ⊢
        obtain ⟨hnew, hquotable⟩ := List.forall_mem_cons.1 hquotable
        obtain ⟨rest', hrest, hfound⟩ := exists_writtenRuns_of_quotable hnew hquote hother
        rw [hfound, houtside rest' hrest hquotable, List.map_cons]
      · rename_i hquote
        rw [if_neg hquote] at hother ⊢
        have hrun' : ∀ other ∈ run ++ [cell], isQuote other.seen = false :=
          List.forall_mem_append.2 ⟨hrun, by simpa using hquote⟩
        exact hinside (run ++ [cell]) hrun' other hother hquotable

/-! ## All calls -/

/-- The reference that an id found is, as it is written. -/
def IdSpan.reference (found : IdSpan) : Reference :=
  ⟨found.kind, found.id⟩

/-- What is made of the kinds and texts of the ids of a call is made of the pieces of its argument.
-/
theorem Call.map_ids {α : Type} (f : CallKind → Text → α) (call : Call) :
    (call.ids.map fun span => f span.kind span.id) =
      (writtenRuns none call.argument).map (f call.kind) := by
  rw [Call.ids, writtenRuns, List.map_map, List.map_map]
  rfl

/-- An argument whose ids are spelled in another way has the new ids. -/
theorem Call.map_reference_of_respelled {call : Call} {argument : List Cell}
    (hquotable : ∀ found ∈ call.ids, Quotable (respell found.id))
    (h : argument.map Cell.shown = respelledRuns respell none call.argument) :
    ({ call with argument := argument } : Call).ids.map IdSpan.reference =
      call.ids.map fun span => ⟨span.kind, respell span.id⟩ := by
  have hids : ∀ id ∈ writtenRuns none call.argument, Quotable (respell id) := by
    have hmap : call.ids.map IdSpan.id = writtenRuns none call.argument :=
      (call.map_ids fun _ id => id).trans (List.map_id _)
    rw [← hmap]
    exact List.forall_mem_map.2 hquotable
  calc ({ call with argument := argument } : Call).ids.map IdSpan.reference
      = (writtenRuns none argument).map (Reference.mk call.kind) := Call.map_ids Reference.mk _
    _ = (writtenRuns none call.argument).map fun id => Reference.mk call.kind (respell id) := by
        rw [(writtenRuns_of_respelled respell call.argument).1 argument h hids, List.map_map]
        rfl
    _ = call.ids.map fun span => ⟨span.kind, respell span.id⟩ :=
        (call.map_ids fun kind id => Reference.mk kind (respell id)).symm

/-- The ids of the calls are spread over the cells that are searched. Where they are spelled in
another way, the search finds as many calls of the same kinds, with the new ids. -/
theorem Searched.exists_respelled (respell : Text → Text) {free : Bool} {calls : List Call}
    (h : Searched free cells calls) :
    ∃ respelled, Spread respell cells (calls.flatMap Call.ids) respelled ∧
      ((∀ found ∈ calls.flatMap Call.ids, Quotable (respell found.id)) →
        ∀ other, other.map Cell.shown = respelled → ∃ found, Searched free other found ∧
          (found.flatMap Call.ids).map IdSpan.reference =
            (calls.flatMap Call.ids).map fun span => ⟨span.kind, respell span.id⟩) := by
  induction h with
  | done free =>
    refine ⟨[], .done [], fun _ other hother => ⟨[], ?_, rfl⟩⟩
    rw [List.map_eq_nil_iff.1 hother]
    exact .done free
  -- the cell opens no call, and none is opened in front of the other ids either: whether a call
  -- begins there is seen in a similar way
  | @skipped free cell rest calls hnone tail ih =>
    obtain ⟨respelled, hspread, hfound⟩ := ih
    have hwhole := hspread.append_left [cell]
    refine ⟨cell.shown :: respelled, hwhole, fun hquotable other hother => ?_⟩
    have hsimilar := hwhole.similar hquotable hother
    obtain ⟨cell', rest', rfl, hcell, hrest⟩ := List.map_eq_cons_iff.1 hother
    have hseen : cell'.seen = cell.seen := congrArg Prod.fst hcell
    obtain ⟨found, hsearched, hreferences⟩ := hfound hquotable rest' hrest
    rw [← hseen] at hsearched
    exact ⟨found, .skipped (fun hfree => hsimilar.callAt?_eq_none (hnone hfree)) hsearched,
      hreferences⟩
  | @found cells after call calls hcall tail ih =>
    obtain ⟨respelled, hspread, hfound⟩ := ih
    -- the cells are a front, the argument, what is between it and the end of the call, and the rest
    obtain ⟨start, hstart, harg⟩ := exists_of_callAt? hcall
    obtain ⟨front, -, rfl⟩ := exists_of_argumentStart? hstart
    obtain ⟨⟨between, rfl⟩, hcells⟩ := exists_of_argument? harg
    have hargument : Spread respell call.argument call.ids
        (respelledRuns respell none call.argument) :=
      (spread_quotedRuns respell call.kind hcells).1
    have hwhole := (hargument.append (hspread.append_left between)).append_left front
    refine ⟨_, hwhole, fun hquotable other hother => ?_⟩
    rw [List.flatMap_cons] at hquotable ⊢
    obtain ⟨hids, hmore⟩ := List.forall_mem_append.1 hquotable
    -- the other cells fall into the same four parts
    obtain ⟨front', behind', rfl, hfront', hbehind'⟩ := List.map_eq_append_iff.1 hother
    obtain ⟨argument', rest', rfl, hargument', hrest'⟩ := List.map_eq_append_iff.1 hbehind'
    obtain ⟨between', after', rfl, hbetween', hafter'⟩ := List.map_eq_append_iff.1 hrest'
    obtain ⟨found, hsearched, hreferences⟩ := hfound hmore after' hafter'
    have hcall' := callAt?_of_similar hcall hstart
      (map_seen_of_map_shown hfront'.symm) (hargument.similar hids hargument')
      (map_seen_of_map_shown hbetween'.symm) (hspread.similar hmore hafter')
    refine ⟨_, .found hcall' hsearched, ?_⟩
    rw [List.flatMap_cons, List.map_append, List.map_append, hreferences,
      Call.map_reference_of_respelled hids hargument']

/-- The ids of a source are spread over its cells. A source in whose view they are spelled in
another way has the references with the new ids. -/
theorem exists_respelled_scan (respell : Text → Text) (source : Text) :
    ∃ respelled, Spread respell (Script.cells source) (scan source) respelled ∧
      ((∀ found ∈ scan source, Quotable (respell found.id)) →
        ∀ other, view other = respelled → (scan other).map IdSpan.reference =
          (scan source).map fun span => ⟨span.kind, respell span.id⟩) := by
  obtain ⟨respelled, hspread, hfound⟩ :=
    (searched_callsFrom true (Script.cells source)).exists_respelled respell
  refine ⟨respelled, hspread, fun hquotable other hview => ?_⟩
  obtain ⟨found, hsearched, hreferences⟩ := hfound hquotable (Script.cells other)
    ((map_shown_cells other).trans hview)
  rw [scan, calls, hsearched.callsFrom_eq]
  exact hreferences

/-! ## Ids and bytes -/

/-- A quote takes one byte. -/
theorem utf8Size_of_isQuote {c : Char} (h : isQuote c = true) : c.utf8Size = 1 := by
  simp only [isQuote, Bool.or_eq_true, beq_iff_eq] at h
  rcases h with rfl | rfl <;> rfl

/-- A quote is no blank, so it is not what a mask leaves. -/
theorem ne_space_of_isQuote {c : Char} (h : isQuote c = true) : c ≠ ' ' := by
  rintro rfl
  simp [isQuote] at h

/-- An id starts behind its opening quote, which takes one byte. -/
theorem start_ofRun (kind : CallKind) {opening closing : Cell} {run : List Cell}
    (hopening : isQuote opening.seen = true) (h : Gapless (opening :: (run ++ closing :: after))) :
    (IdSpan.ofRun kind run closing).start = opening.offset + 1 := by
  rw [← utf8Size_of_isQuote hopening]
  rcases run with _ | ⟨first, others⟩
  · exact (List.isChain_cons_cons.1 h).1
  · exact (List.isChain_cons_cons.1 h).1

/-- Ids stand behind their opening quotes. -/
theorem Spread.lt_start {ids : List IdSpan} {respelled : List (Char × Text)}
    (h : Spread respell cells ids respelled) {offset : Nat} (hgapless : Gapless cells)
    (hle : ∀ cell ∈ cells, offset ≤ cell.offset) : ∀ found ∈ ids, offset < found.start := by
  induction h with
  | done => simp
  | @found kind before opening closing run after ids respelled hopening hclosing _ _ ih =>
    have hstart := start_ofRun kind hopening hgapless.right_of_append
    have hat := hle opening (by simp)
    rw [List.append_cons, ← List.append_assoc] at hgapless
    refine List.forall_mem_cons.2 ⟨by omega, ih hgapless.right_of_append fun cell hmem => ?_⟩
    rw [List.mem_cons] at hmem
    exact hle cell (by simp [hmem])

/-- An id between two quotes has the bytes that are written there. -/
theorem span_ofRun (kind : CallKind) {offset : Nat} {before run : List Cell}
    {opening closing : Cell}
    (haligned : Aligned offset (before ++ opening :: (run ++ closing :: after)))
    (hgapless : Gapless (before ++ opening :: (run ++ closing :: after)))
    (hopening : isQuote opening.seen = true) (hclosing : isQuote closing.seen = true) :
    opening.written = [opening.seen] ∧ closing.written = [closing.seen] ∧
      (IdSpan.ofRun kind run closing).start =
        offset + Text.byteLength ((before ++ [opening]).flatMap Cell.written) ∧
      (IdSpan.ofRun kind run closing).stop = (IdSpan.ofRun kind run closing).start +
        Text.byteLength (run.flatMap Cell.written) := by
  have hregroup : before ++ opening :: (run ++ closing :: after) =
      ((before ++ [opening]) ++ run) ++ closing :: after := by simp
  obtain ⟨hoffset, hopened⟩ := haligned before opening _ rfl (ne_space_of_isQuote hopening)
  rw [hregroup] at haligned
  -- the closing quote says where the id ends
  obtain ⟨hend, hclosed⟩ := haligned _ closing after rfl (ne_space_of_isQuote hclosing)
  have hlength : Text.byteLength ((before ++ [opening]).flatMap Cell.written) =
      Text.byteLength (before.flatMap Cell.written) + 1 := by
    rw [List.flatMap_append, Text.byteLength_append, List.flatMap_singleton, hopened,
      Text.byteLength, Text.byteLength_nil, utf8Size_of_isQuote hopening]
  have hstart := start_ofRun kind hopening hgapless.right_of_append
  refine ⟨hopened, hclosed, by omega, ?_⟩
  rw [List.flatMap_append, Text.byteLength_append] at hend
  show closing.offset = _
  omega

/-- Ids that are spread over aligned cells are pieces of what the cells have written, and what is
shown with other ids has the same pieces between them. -/
theorem Spread.exists_pieces {ids : List IdSpan} {respelled : List (Char × Text)}
    (h : Spread respell cells ids respelled) {offset : Nat} (haligned : Aligned offset cells)
    (hgapless : Gapless cells) :
    ∃ pieces tail, pieces.map Piece.found = ids ∧
      cells.flatMap Cell.written = assembled IdSpan.id pieces tail ∧
      respelled.flatMap Prod.snd = assembled (fun found => respell found.id) pieces tail ∧
      Positioned offset pieces := by
  induction h generalizing offset with
  | done cells =>
    refine ⟨[], cells.flatMap Cell.written, rfl, rfl, ?_, trivial⟩
    rw [List.flatMap_map]
    rfl
  | @found kind before opening closing run after ids respelled hopening hclosing _ _ ih =>
    obtain ⟨-, -, hstart, hstop⟩ := span_ofRun kind haligned hgapless hopening hclosing
    have hregroup : before ++ opening :: (run ++ closing :: after) =
        ((before ++ [opening]) ++ run) ++ closing :: after := by simp
    rw [hregroup] at haligned hgapless
    obtain ⟨pieces, tail, hfound, htext, hrespelled, hpositioned⟩ :=
      ih haligned.of_append hgapless.right_of_append
    -- the opening quote belongs to what stands before the id, the closing one to what follows it
    refine ⟨⟨(before ++ [opening]).flatMap Cell.written, IdSpan.ofRun kind run closing⟩ :: pieces,
      tail, by rw [List.map_cons, hfound], ?_, ?_, hstart, hstop, ?_⟩
    · rw [assembled_cons, ← htext]
      simp [IdSpan.ofRun]
    · rw [assembled_cons, ← hrespelled]
      simp [IdSpan.ofRun, Cell.shown, List.flatMap_map]
    · show Positioned (IdSpan.ofRun kind run closing).stop pieces
      rwa [hstop, hstart, Nat.add_assoc, ← Text.byteLength_append, ← List.flatMap_append]

/-- A source is made of the ids found in it, at their bytes, and of what stands between them. -/
theorem exists_pieces_scan (source : Text) :
    ∃ pieces tail, pieces.map Piece.found = scan source ∧
      source = assembled IdSpan.id pieces tail ∧ Positioned 0 pieces := by
  obtain ⟨respelled, hspread, -⟩ := exists_respelled_scan id source
  obtain ⟨pieces, tail, hfound, htext, -, hpositioned⟩ :=
    hspread.exists_pieces (aligned_cells source) (gapless_cells source)
  rw [flatMap_written_cells] at htext
  exact ⟨pieces, tail, hfound, htext, hpositioned⟩

end ModuleCompiler.Script
