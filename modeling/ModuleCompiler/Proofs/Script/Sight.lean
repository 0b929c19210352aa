import ModuleCompiler.Proofs.Script.Scanning

/-!
# What the scan looks at

The scan goes by what is seen in the cells and by the bytes at which they start. What is written in
the source is only copied into the ids that are found. So a change of the cells that keeps what is
seen commutes with every recogniser, from `dropSeen?_map` to `callsFrom_map` and `quotedRuns_map`,
and two sources whose views show the same have their ids at the same places (`map_place_scan`): both
scans are one scan of cells in which nothing is written.
-/

namespace ModuleCompiler.Script

/-! ## Recognisers -/

section Map

variable {f : Cell → Cell} (hseen : ∀ cell, (f cell).seen = cell.seen)

include hseen

theorem dropSeen?_map (pattern : Text) (cells : List Cell) :
    dropSeen? pattern (cells.map f) = (dropSeen? pattern cells).map (List.map f) := by
  induction pattern generalizing cells with
  | nil => rfl
  | cons c pattern ih =>
    rcases cells with _ | ⟨cell, rest⟩
    · rfl
    · rw [List.map_cons, dropSeen?, dropSeen?, hseen]
      split
      · exact ih rest
      · rfl

theorem dropBlanks_map (cells : List Cell) :
    dropBlanks (cells.map f) = (dropBlanks cells).map f := by
  rw [dropBlanks, List.dropWhile_map, dropBlanks]
  simp only [Function.comp_def, hseen]

theorem dropOptional_map (c : Char) (cells : List Cell) :
    dropOptional c (cells.map f) = (dropOptional c cells).map f := by
  rw [dropOptional, dropOptional, dropSeen?_map hseen]
  cases dropSeen? [c] cells <;> rfl

theorem openParenthesis?_map (cells : List Cell) :
    openParenthesis? (cells.map f) = (openParenthesis? cells).map (List.map f) := by
  rw [openParenthesis?, openParenthesis?, dropBlanks_map hseen, dropSeen?_map hseen]

theorem closeArgument?_map (cells : List Cell) :
    closeArgument? (cells.map f) = (closeArgument? cells).map (List.map f) := by
  rw [closeArgument?, closeArgument?, dropOptional_map hseen, dropBlanks_map hseen,
    dropSeen?_map hseen]

theorem argument?_map (cells : List Cell) :
    argument? (cells.map f) = (argument? cells).map (Prod.map (List.map f) (List.map f)) := by
  -- On the cells: the argument ends at the same one, or goes on behind it.
  induction cells with
  | nil => rfl
  | cons cell rest ih =>
    have hclose := closeArgument?_map hseen (cell :: rest)
    rw [List.map_cons] at hclose ⊢
    rw [argument?, argument?, hclose]
    rcases closeArgument? (cell :: rest) with _ | after
    · simp only [Option.map_none, hseen]
      split
      · rfl
      · rw [ih, Option.map_map, Option.map_map]
        rfl
    · rfl

/-- A call with the cells of its argument changed. -/
def Call.map (f : Cell → Cell) (call : Call) : Call :=
  { call with argument := call.argument.map f }

theorem argumentStart?_map (kind : CallKind) (cells : List Cell) :
    argumentStart? kind (cells.map f) = (argumentStart? kind cells).map (List.map f) := by
  rw [argumentStart?, argumentStart?, dropSeen?_map hseen]
  rcases dropSeen? kind.callee cells with _ | named
  · rfl
  · simp only [Option.map_some, bind, Option.bind_some, openParenthesis?_map hseen]
    rcases openParenthesis? named with _ | opened
    · rfl
    · simp only [Option.map_some, Option.bind_some, pure, dropBlanks_map hseen,
        dropOptional_map hseen]

theorem callOfKindAt?_map (cells : List Cell) (kind : CallKind) :
    callOfKindAt? (cells.map f) kind =
      (callOfKindAt? cells kind).map (Prod.map (Call.map f) (List.map f)) := by
  rw [callOfKindAt?_eq, callOfKindAt?_eq, argumentStart?_map hseen]
  rcases argumentStart? kind cells with _ | start
  · rfl
  · simp only [Option.map_some, Option.bind_some, argument?_map hseen, Option.map_map]
    rfl

theorem callAt?_map (cells : List Cell) :
    callAt? (cells.map f) = (callAt? cells).map (Prod.map (Call.map f) (List.map f)) := by
  have hkinds : ∀ kinds : List CallKind, kinds.findSome? (callOfKindAt? (cells.map f)) =
      (kinds.findSome? (callOfKindAt? cells)).map (Prod.map (Call.map f) (List.map f)) := by
    intro kinds
    induction kinds with
    | nil => rfl
    | cons kind others ih =>
      rw [List.findSome?_cons, List.findSome?_cons, callOfKindAt?_map hseen]
      rcases callOfKindAt? cells kind with _ | found
      · exact ih
      · rfl
  exact hkinds _

theorem callsFrom_map (skip : Nat) (free : Bool) (cells : List Cell) :
    callsFrom skip free (cells.map f) = (callsFrom skip free cells).map (Call.map f) := by
  -- On the cells, with the number of them that a call has taken: it is the same in both searches,
  -- since the calls are of one length.
  induction cells generalizing skip free with
  | nil => cases skip <;> rfl
  | cons cell rest ih =>
    cases skip with
    | succ skip => exact ih skip false
    | zero =>
      have hcall : (if free then callAt? (f cell :: rest.map f) else none) =
          (if free then callAt? (cell :: rest) else none).map
            (Prod.map (Call.map f) (List.map f)) := by
        rw [← List.map_cons, callAt?_map hseen]
        split <;> rfl
      rw [List.map_cons, callsFrom, callsFrom, hcall]
      rcases (if free then callAt? (cell :: rest) else none) with _ | ⟨call, after⟩
      · simp only [Option.map_none, hseen]
        exact ih 0 _
      · simp only [Option.map_some, Prod.map_apply, List.length_map, List.map_cons]
        rw [ih]

/-! ## Ids -/

theorem quotedRuns_map (begun : Option (List Cell)) (cells : List Cell) :
    quotedRuns (begun.map (List.map f)) (cells.map f) =
      (quotedRuns begun cells).map (Prod.map (List.map f) f) := by
  induction cells generalizing begun with
  | nil => cases begun <;> rfl
  | cons cell rest ih =>
    cases begun with
    | none =>
      simp only [Option.map_none, List.map_cons, quotedRuns, hseen]
      split
      · exact ih (some [])
      · exact ih none
    | some run =>
      simp only [Option.map_some, List.map_cons, quotedRuns, hseen]
      split
      · rw [List.map_cons]
        exact congrArg (_ :: ·) (ih none)
      · have hrun := ih (some (run ++ [cell]))
        rwa [Option.map_some, List.map_append] at hrun

/-- Where an id was found, and in which call. -/
def IdSpan.place (found : IdSpan) : CallKind × Nat × Nat :=
  (found.kind, found.start, found.stop)

theorem map_place_ids (hoffset : ∀ cell, (f cell).offset = cell.offset) (call : Call) :
    (call.map f).ids.map IdSpan.place = call.ids.map IdSpan.place := by
  have hruns : quotedRuns none (call.map f).argument = _ := quotedRuns_map hseen none call.argument
  rw [Call.ids, hruns, Call.ids, List.map_map, List.map_map, List.map_map]
  refine List.map_congr_left ?_
  rintro ⟨run, closing⟩ -
  -- an id starts at its first cell, or at the closing quote if it is empty
  cases run <;> simp [IdSpan.place, IdSpan.ofRun, Call.map, hoffset]

end Map

/-! ## Views that show the same -/

/-- The cell without what is written there. -/
def Cell.unwritten (cell : Cell) : Cell :=
  { cell with written := [] }

theorem map_unwritten_place (offset : Nat) (shown : List (Char × Text)) :
    (place offset shown).map Cell.unwritten =
      place offset ((shown.map Prod.fst).map fun c => (c, [])) := by
  induction shown generalizing offset with
  | nil => rfl
  | cons head rest ih =>
    rw [place, List.map_cons, ih]
    rfl

/-- Two sources whose views show the same have their ids at the same places. -/
theorem map_place_scan {source other : Text} (h : mask source = mask other) :
    (scan source).map IdSpan.place = (scan other).map IdSpan.place := by
  -- a scan forgets what is written where only the places are asked for
  have hblind : ∀ text : Text, (scan text).map IdSpan.place =
      (callsFrom 0 true ((cells text).map Cell.unwritten)).flatMap fun call =>
        call.ids.map IdSpan.place := by
    intro text
    rw [callsFrom_map (f := Cell.unwritten) (fun _ => rfl), List.flatMap_map, scan,
      List.map_flatMap, calls]
    refine List.flatMap_congr fun call _ => ?_
    exact (map_place_ids (f := Cell.unwritten) (fun _ => rfl) (fun _ => rfl) call).symm
  have hcells : (cells source).map Cell.unwritten = (cells other).map Cell.unwritten := by
    rw [mask, mask, cells, cells, map_seen_place, map_seen_place] at h
    rw [cells, cells, map_unwritten_place, map_unwritten_place, h]
  rw [hblind, hblind, hcells]

end ModuleCompiler.Script
