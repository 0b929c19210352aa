import ModuleCompiler.Proofs.Script.CallLayout

/-!
# Scanning the layouts of a call

The scan finds the ids of every layout of a call in their places, except where a line breaks in the
argument: there it finds no call at all, or one that starts in an id.

So one direction of `scan_text_eq_ids_iff` is a computation, `CallLayout.scan_text`. For the other
it is not enough that no call starts the text, as a call may start further on: between the callee
and the first id no character starts a callee (`CallLayout.exists_text_eq`), and so whatever is
found stands behind the start of the first id (`CallLayout.lt_start_of_mem_scan`), which was to be
found. `scan_brokenArray` is a call that is not found.
-/

namespace ModuleCompiler.Script

open Unicode

namespace CallLayout

variable (layout : CallLayout)

theorem cells_text : cells layout.text = placed 0 layout.opening ++
    (placed (Text.byteLength layout.opening) layout.argument.text ++
      placed (Text.byteLength (layout.opening ++ layout.argument.text))
        (layout.beforeClosing.text ++ [')'])) := by
  rw [cells_of_verbatim layout.verbatim_text, text, placed_append, placed_append, Nat.zero_add,
    Nat.zero_add, List.append_assoc]

/-- The call is found where the text starts, unless a line breaks in its argument. -/
theorem callAt?_cells : callAt? (cells layout.text) = if '\n' ∈ layout.argument.text then none
    else some (⟨layout.kind, layout.argument.cells (Text.byteLength layout.opening)⟩, []) := by
  have hseen : (cells layout.text).map Cell.seen = layout.kind.callee ++ layout.afterCallee.text ++
      '(' :: (layout.afterOpening.text ++ layout.argument.text ++
        (layout.beforeClosing.text ++ [')'])) := by
    rw [cells_of_verbatim layout.verbatim_text, map_seen_placed]
    simp [text, opening]
  obtain ⟨hclosed, hends⟩ := closeArgument?_closing layout.beforeClosing
    (Text.byteLength (layout.opening ++ layout.argument.text))
  have hstart := argumentStart?_placed layout.kind layout.afterCallee layout.afterOpening 0
    (layout.argument.dropBlanks_placed (Text.byteLength layout.opening)
      (placed (Text.byteLength (layout.opening ++ layout.argument.text))
        (layout.beforeClosing.text ++ [')'])))
  rw [← opening, ← cells_text] at hstart
  rw [callAt?_eq_callOfKindAt? layout.afterCallee hseen, callOfKindAt?_eq, hstart, Option.bind_some,
    layout.argument.argument?_placed _ hclosed hends]
  split <;> rfl

/-- The ids of a call on one line are found. -/
theorem scan_text (hline : '\n' ∉ layout.argument.text) : scan layout.text = layout.ids := by
  have hcall := layout.callAt?_cells
  rw [if_neg hline] at hcall
  rw [scan, calls, callsFrom_of_callAt? hcall, callsFrom, List.flatMap_singleton,
    Argument.ids_cells]
  rfl

end CallLayout

/-! ## Where no call starts the text -/

section Search

variable {front rest : List Cell}

theorem CallKind.head?_callee (kind : CallKind) :
    kind.callee.head? = some 'r' ∨ kind.callee.head? = some 's' := by
  cases kind <;> decide

theorem callAt?_eq_none_of_head {cell : Cell}
    (h : ∀ kind : CallKind, kind.callee.head? ≠ some cell.seen) (rest : List Cell) :
    callAt? (cell :: rest) = none := by
  by_contra hsome
  obtain ⟨⟨call, after⟩, hcall⟩ := Option.ne_none_iff_exists'.1 hsome
  obtain ⟨start, hstart, -⟩ := exists_of_callAt? hcall
  obtain ⟨named, hnamed, -⟩ := Option.bind_eq_some_iff.1 hstart
  obtain ⟨passed, hpassed, hseen⟩ := exists_of_dropSeen? hnamed
  rcases passed with _ | ⟨first, passed⟩
  · exact call.kind.callee_ne_nil hseen.symm
  · obtain ⟨rfl, -⟩ := List.cons.inj hpassed
    exact h call.kind (by rw [← hseen]; rfl)

/-- No call starts behind characters of a name, up to its end. -/
theorem callsFrom_append_name (h : ∀ cell ∈ front, isBoundary cell.seen = false)
    (rest : List Cell) : callsFrom 0 false (front ++ rest) = callsFrom 0 false rest := by
  induction front with
  | nil => rfl
  | cons cell front ih =>
    obtain ⟨hcell, hfront⟩ := List.forall_mem_cons.1 h
    rw [List.cons_append, callsFrom_of_eq_none (by simp), hcell, ih hfront]

theorem exists_callsFrom_append (h : ∀ cell ∈ front, ∀ kind : CallKind,
    kind.callee.head? ≠ some cell.seen) (free : Bool) (rest : List Cell) :
    ∃ free', callsFrom 0 free (front ++ rest) = callsFrom 0 free' rest := by
  induction front generalizing free with
  | nil => exact ⟨free, rfl⟩
  | cons cell front ih =>
    obtain ⟨hcell, hfront⟩ := List.forall_mem_cons.1 h
    rw [List.cons_append, callsFrom_of_eq_none fun _ => callAt?_eq_none_of_head hcell _]
    exact ih hfront _

theorem lt_start_of_mem_callsFrom {free : Bool} {offset : Nat} {shown : List (Char × Text)} :
    ∀ found ∈ (callsFrom 0 free (place offset shown)).flatMap Call.ids, offset < found.start := by
  obtain ⟨respelled, hspread, -⟩ :=
    (searched_callsFrom free (place offset shown)).exists_respelled id
  exact hspread.lt_start (gapless_place offset shown) fun _ => le_offset_of_mem_place

end Search

namespace CallLayout

variable (layout : CallLayout)

/-- Between the callee and the first id of an array stands no character that a callee starts
with. -/
theorem exists_text_eq {first : Entry} {others : List Entry}
    (hargument : layout.argument = .array first others) :
    ∃ between behind, layout.text = layout.kind.callee ++ (between ++ behind) ∧
      Text.byteLength (layout.kind.callee ++ between) =
        Text.byteLength (layout.opening ++ '[' :: first.before.text) + 1 ∧
      ∀ c ∈ between, ∀ kind : CallKind, kind.callee.head? ≠ some c := by
  obtain ⟨more, hmore⟩ : ∃ more, entriesText (first :: others) = first.text ++ more := by
    rcases others with _ | ⟨next, others⟩
    · exact ⟨[], by rw [entriesText_singleton, List.append_nil]⟩
    · exact ⟨_, entriesText_cons_cons first next others⟩
  refine ⟨layout.afterCallee.text ++ '(' :: layout.afterOpening.text ++
      '[' :: first.before.text ++ [first.quoted.quote],
    first.quoted.id ++ [first.quoted.quote] ++ first.after.text ++ more ++ [']'] ++
      (layout.beforeClosing.text ++ [')']), ?_, ?_, ?_⟩
  · rw [text, hargument, Argument.text, hmore, Entry.text, QuotedId.text, opening]
    simp
  · have hregroup : layout.kind.callee ++ (layout.afterCallee.text ++ '(' ::
        layout.afterOpening.text ++ '[' :: first.before.text ++ [first.quoted.quote]) =
          (layout.opening ++ '[' :: first.before.text) ++ [first.quoted.quote] := by
      simp [opening]
    rw [hregroup, Text.byteLength_append, Text.byteLength, Text.byteLength_nil,
      utf8Size_of_isQuote first.quoted.quote_isQuote]
  · -- all characters there are blanks, brackets or a quote
    have hnot : ∀ d, isBlank d = false → isQuote d = false → d ≠ '(' → d ≠ '[' →
        d ∉ layout.afterCallee.text ++ '(' :: layout.afterOpening.text ++
          '[' :: first.before.text ++ [first.quoted.quote] := by
      intro d hblank hquote hparenthesis hbracket
      have hne := ne_of_isQuote first.quoted.quote_isQuote hquote
      simp [layout.afterCallee.not_mem hblank, layout.afterOpening.not_mem hblank,
        first.before.not_mem hblank, hparenthesis, hbracket, hne.symm]
    intro c hmem kind hhead
    rcases kind.head?_callee with hkind | hkind <;> rw [hkind, Option.some.injEq] at hhead <;>
      subst hhead <;> exact hnot _ (by decide) (by decide) (by decide) (by decide) hmem

/-- Where a line breaks in the argument, nothing is found up to the first id. -/
theorem lt_start_of_mem_scan {first : Entry} {others : List Entry}
    (hargument : layout.argument = .array first others) (hline : '\n' ∈ layout.argument.text) :
    ∀ found ∈ scan layout.text,
      Text.byteLength (layout.opening ++ '[' :: first.before.text) + 1 < found.start := by
  have hnone := layout.callAt?_cells
  rw [if_pos hline] at hnone
  obtain ⟨between, behind, htext, hlength, hbetween⟩ := layout.exists_text_eq hargument
  obtain ⟨initial, name, hcallee⟩ := List.exists_cons_of_ne_nil layout.kind.callee_ne_nil
  have hname : ∀ c ∈ initial :: name, isBoundary c = false := by
    rw [← hcallee]
    exact List.all_iff_forall_prop.1 (by cases layout.kind <;> decide)
  obtain ⟨hinitial, hname⟩ := List.forall_mem_cons.1 hname
  have hcells : cells layout.text = placed 0 layout.kind.callee ++
      (placed (Text.byteLength layout.kind.callee) between ++
        placed (Text.byteLength (layout.kind.callee ++ between)) behind) := by
    rw [cells_of_verbatim layout.verbatim_text, htext, placed_append, placed_append,
      Text.byteLength_append, Nat.zero_add]
  rw [hlength, hcallee, placed_cons, List.cons_append] at hcells
  rw [hcells] at hnone
  have hskipped : ∀ cell ∈ placed (Text.byteLength (initial :: name)) between,
      ∀ kind : CallKind, kind.callee.head? ≠ some cell.seen :=
    fun _ hmem => hbetween _ (seen_of_mem_placed hmem)
  -- The search leaves the callee without a call, and then what is between it and the first id.
  obtain ⟨free, hfree⟩ := exists_callsFrom_append hskipped false
    (placed (Text.byteLength (layout.opening ++ '[' :: first.before.text) + 1) behind)
  rw [scan, calls, hcells, callsFrom_of_eq_none fun _ => hnone, hinitial,
    callsFrom_append_name fun cell hmem => hname _ (seen_of_mem_placed hmem), hfree]
  exact lt_start_of_mem_callsFrom

end CallLayout

/-- The scan finds the ids of a call in their places exactly when no line breaks in its argument,
from its first quote or bracket to its last. -/
theorem scan_text_eq_ids_iff (layout : CallLayout) :
    scan layout.text = layout.ids ↔ '\n' ∉ layout.argument.text := by
  refine ⟨fun hscan hline => ?_, layout.scan_text⟩
  rcases hargument : layout.argument with quoted | ⟨first, others⟩
  · rw [hargument] at hline
    exact quoted.line_not_mem hline
  · have hfound := layout.lt_start_of_mem_scan hargument hline
    rw [hscan, CallLayout.ids, hargument, Argument.spans, entrySpans,
      List.forall_mem_cons] at hfound
    have hlength : Text.byteLength (layout.opening ++ '[' :: first.before.text) =
        Text.byteLength layout.opening + 1 + Text.byteLength first.before.text := by
      rw [Text.byteLength_append, Text.byteLength, ← Nat.add_assoc]
      rfl
    rw [hlength] at hfound
    exact absurd hfound.1 (Nat.lt_irrefl _)

/-- Nothing between two tokens. -/
def Gap.none : Gap :=
  ⟨[], List.forall_mem_nil _⟩

/-- A line break between two tokens. -/
def Gap.line : Gap :=
  ⟨['\n'], List.forall_mem_singleton.2 rfl⟩

/-- An array with an id on each line. -/
def brokenArray : CallLayout where
  kind := .use
  afterCallee := .none
  afterOpening := .none
  argument := .array ⟨.line, ⟨'\'', ['a'], rfl, List.forall_mem_singleton.2 (by decide), by decide⟩,
      .none⟩
    [⟨.line, ⟨'\'', ['b'], rfl, List.forall_mem_singleton.2 (by decide), by decide⟩, .line⟩]
  beforeClosing := .none

/-- Nothing is found in the array, though it has two ids. -/
theorem scan_brokenArray :
    brokenArray.text = "seajs.use([\n'a',\n'b'\n])".toList ∧
      brokenArray.ids = [⟨.use, 13, 14, ['a']⟩, ⟨.use, 18, 19, ['b']⟩] ∧
      scan brokenArray.text = [] := by
  decide +kernel

end ModuleCompiler.Script
