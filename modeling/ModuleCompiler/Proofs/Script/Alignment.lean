import Mathlib.Data.List.Chain
import ModuleCompiler.Proofs.Lists
import ModuleCompiler.Proofs.Script.Layout
import ModuleCompiler.Script.Cell

/-!
# Places in the masked view

The view shows one space for each byte of a comment, so a place in the view is a place in the source
only at the start of a character. Whatever is seen as something else than a space is written there
as it is seen, and starts at the byte that it has in the source: that is `Aligned`, which
`aligned_cells` proves of every source. It follows from the two ways in which a view shows a
character, and so by induction on `Shows`. Independently of them, each cell starts where the one
before it ends (`gapless_cells`).
-/

namespace ModuleCompiler.Script

/-! ## What a view shows -/

/-- The bytes that the shown characters take in the view. -/
def seenLength (shown : List (Char × Text)) : Nat :=
  Text.byteLength (shown.map Prod.fst)

theorem place_append (offset : Nat) (shown more : List (Char × Text)) :
    place offset (shown ++ more) =
      place offset shown ++ place (offset + seenLength shown) more := by
  induction shown generalizing offset with
  | nil => rfl
  | cons head rest ih =>
    rw [List.cons_append, place, place, ih, List.cons_append, seenLength, seenLength, List.map_cons,
      Text.byteLength, Nat.add_assoc]

/-- A view shows characters as they are written, and each byte of a blanked character as a space. -/
inductive Shows : List (Char × Text) → Prop
  | nil : Shows []
  | plain (c : Char) {rest : List (Char × Text)} (tail : Shows rest) : Shows ((c, [c]) :: rest)
  | blank (c : Char) {rest : List (Char × Text)} (tail : Shows rest) :
      Shows ((' ', [c]) :: List.replicate (c.utf8Size - 1) (' ', []) ++ rest)

theorem Shows.append {shown more : List (Char × Text)} (h : Shows shown) (h' : Shows more) :
    Shows (shown ++ more) := by
  induction h with
  | nil => exact h'
  | plain c _ ih => exact .plain c ih
  | blank c _ ih =>
    rw [List.append_assoc]
    exact .blank c ih

theorem shows_blanked (c : Char) : Shows (blanked c) := by
  unfold blanked
  split
  · exact .plain c .nil
  · have h := Shows.blank c .nil
    rwa [List.append_nil] at h

theorem shows_flatMap {α : Type} {view : α → List (Char × Text)} (h : ∀ input, Shows (view input))
    (inputs : List α) : Shows (inputs.flatMap view) := by
  induction inputs with
  | nil => exact .nil
  | cons input rest ih => exact (h input).append ih

theorem shows_plain (text : Text) : Shows (text.map fun c => (c, [c])) := by
  induction text with
  | nil => exact .nil
  | cons c rest ih => exact .plain c ih

/-- Lexemes are shown in these ways, comments blanked and all others as they are written. -/
theorem shows_shown (lexeme : Lexeme) : Shows lexeme.shown := by
  cases lexeme with
  | comment text => exact shows_flatMap shows_blanked text
  | quoted text => exact shows_plain text
  | plain c => exact .plain c .nil

/-! ## Alignment -/

/-- What is seen as a character other than a space is written as it is seen, and starts at its
byte. -/
def Aligned (offset : Nat) (cells : List Cell) : Prop :=
  ∀ before cell after, cells = before ++ cell :: after → cell.seen ≠ ' ' →
    cell.offset = offset + Text.byteLength (before.flatMap Cell.written) ∧
      cell.written = [cell.seen]

theorem Aligned.append {offset : Nat} {front back : List Cell} (hfront : Aligned offset front)
    (hback : Aligned (offset + Text.byteLength (front.flatMap Cell.written)) back) :
    Aligned offset (front ++ back) := by
  intro before cell after heq hseen
  -- the cell is one of the back or one of the front
  rcases append_eq_append_cons heq with ⟨more, rfl, hmore⟩ | ⟨more, hmore, -⟩
  · obtain ⟨hoffset, hwritten⟩ := hback more cell after hmore hseen
    refine ⟨?_, hwritten⟩
    rw [hoffset, List.flatMap_append, Text.byteLength_append, Nat.add_assoc]
  · exact hfront before cell more hmore hseen

/-- What is aligned is so from any cell on. -/
theorem Aligned.of_append {offset : Nat} {front back : List Cell}
    (h : Aligned offset (front ++ back)) :
    Aligned (offset + Text.byteLength (front.flatMap Cell.written)) back := by
  rintro before cell after rfl hseen
  obtain ⟨hoffset, hwritten⟩ := h (front ++ before) cell after (by simp) hseen
  refine ⟨?_, hwritten⟩
  rw [hoffset, List.flatMap_append, Text.byteLength_append, Nat.add_assoc]

/-- A word without a space is written as it is seen. -/
theorem Aligned.written_eq {offset : Nat} {before word after : List Cell}
    (h : Aligned offset (before ++ (word ++ after))) (hword : ' ' ∉ word.map Cell.seen) :
    word.flatMap Cell.written = word.map Cell.seen := by
  induction word generalizing before with
  | nil => rfl
  | cons cell rest ih =>
    obtain ⟨hcell, hrest⟩ : ' ' ≠ cell.seen ∧ ' ' ∉ rest.map Cell.seen := by
      simpa only [List.map_cons, List.mem_cons, not_or] using hword
    obtain ⟨-, hwritten⟩ := h before cell (rest ++ after) rfl hcell.symm
    have hbehind : Aligned offset (before ++ [cell] ++ (rest ++ after)) := by simpa using h
    rw [List.flatMap_cons, hwritten, ih hbehind hrest]
    rfl

/-- Cells that are all seen as spaces are aligned, wherever they are. -/
theorem aligned_of_seen_blank {cells : List Cell} (h : ∀ cell ∈ cells, cell.seen = ' ')
    (offset : Nat) : Aligned offset cells := by
  rintro before cell after rfl hseen
  exact absurd (h cell (by simp)) hseen

theorem aligned_singleton (offset : Nat) (c : Char) : Aligned offset [⟨offset, c, [c]⟩] := by
  intro before cell after heq _
  rcases List.singleton_eq_append_iff.1 heq with ⟨rfl, hcell⟩ | ⟨-, hcell⟩
  · obtain ⟨rfl, -⟩ := List.cons.inj hcell
    simp
  · simp at hcell

/-- The cells of what a view shows are aligned. -/
theorem Shows.aligned {shown : List (Char × Text)} (h : Shows shown) (offset : Nat) :
    Aligned offset (place offset shown) := by
  -- On what is shown. A blanked character takes as many bytes in the view as in the source, so what
  -- comes behind it is at the same offset in both.
  induction h generalizing offset with
  | nil => exact aligned_of_seen_blank (by simp [place]) offset
  | @plain c rest _ ih =>
    refine Aligned.append (aligned_singleton offset c) ?_
    simpa [Text.byteLength] using ih (offset + c.utf8Size)
  | @blank c rest _ ih =>
    have hsize := c.utf8Size_pos
    have hseen : ∀ cell ∈ place offset ((' ', [c]) :: List.replicate (c.utf8Size - 1) (' ', [])),
        cell.seen = ' ' := by
      intro cell hmem
      have hmap := List.mem_map_of_mem (f := Cell.seen) hmem
      rw [map_seen_place, List.map_cons, List.map_replicate, ← List.replicate_succ] at hmap
      exact List.eq_of_mem_replicate hmap
    rw [place_append]
    refine Aligned.append (aligned_of_seen_blank hseen offset) ?_
    -- the character is written once, and one space is seen for each of its bytes
    have hwritten : Text.byteLength ((place offset ((' ', [c]) ::
        List.replicate (c.utf8Size - 1) (' ', []))).flatMap Cell.written) = c.utf8Size := by
      rw [flatMap_written_place, List.flatMap_cons,
        List.flatMap_eq_nil_iff.2 fun shown hmem => by rw [List.eq_of_mem_replicate hmem]]
      rfl
    have hlength : seenLength ((' ', [c]) :: List.replicate (c.utf8Size - 1) (' ', [])) =
        c.utf8Size := by
      rw [seenLength, List.map_cons, List.map_replicate, ← List.replicate_succ,
        Text.byteLength_replicate, Nat.sub_add_cancel hsize]
      exact Nat.mul_one _
    rw [hwritten, hlength]
    exact ih _

/-- The cells of a source are aligned. -/
theorem aligned_cells (source : Text) : Aligned 0 (cells source) :=
  (shows_flatMap shows_shown (lexemes source)).aligned 0

/-! ## Neighbours -/

/-- Each cell starts where the one before it ends. -/
def Gapless (cells : List Cell) : Prop :=
  cells.IsChain fun cell next => next.offset = cell.offset + cell.seen.utf8Size

theorem gapless_place (offset : Nat) (shown : List (Char × Text)) :
    Gapless (place offset shown) := by
  induction shown generalizing offset with
  | nil => exact .nil
  | cons head rest ih =>
    rcases rest with _ | ⟨next, others⟩
    · exact .singleton _
    · exact List.isChain_cons_cons.2 ⟨rfl, ih _⟩

theorem le_offset_of_mem_place {offset : Nat} {shown : List (Char × Text)} {cell : Cell}
    (h : cell ∈ place offset shown) : offset ≤ cell.offset := by
  induction shown generalizing offset with
  | nil => simp [place] at h
  | cons head tail ih =>
    rw [place, List.mem_cons] at h
    rcases h with rfl | htail
    · exact Nat.le_refl _
    · exact Nat.le_trans (Nat.le_add_right _ _) (ih htail)

theorem gapless_cells (source : Text) : Gapless (cells source) :=
  gapless_place 0 _

end ModuleCompiler.Script
