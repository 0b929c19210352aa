import Mathlib.Data.List.Sort
import ModuleCompiler.Script.Reference

/-!
# Ids in a text and edits at their places

A text with some ids in it is made of pieces, each an id with what stands before it, and a tail.
Writing other texts in the places of the ids is what splicing does, when each edit has the bytes at
which its id stands.

`assembled` puts pieces together with any text in the place of an id, so a source and what becomes
of it are one list of pieces written in two ways; `Positioned` says that the ids have the bytes at
which they stand in the first. `splice_assembled` leads from the one to the other for edits at some
of the ids. It rests on cutting a text behind a whole piece (`takeBytes_append`,
`dropBytes_append`), and on edits at positioned ids being in order already.
-/

namespace ModuleCompiler

namespace Text

/-! ## Bytes -/

@[simp] theorem byteLength_nil : byteLength [] = 0 := rfl

@[simp] theorem byteLength_append (before after : Text) :
    byteLength (before ++ after) = byteLength before + byteLength after := by
  induction before with
  | nil => simp
  | cons c rest ih =>
    simp only [List.cons_append, byteLength, ih]
    omega

theorem byteLength_replicate (count : Nat) (c : Char) :
    byteLength (List.replicate count c) = count * c.utf8Size := by
  induction count with
  | zero => simp
  | succ count ih => rw [List.replicate_succ, byteLength, ih, Nat.succ_mul, Nat.add_comm]

@[simp] theorem takeBytes_zero (text : Text) : takeBytes 0 text = [] := by
  cases text with
  | nil => rfl
  | cons c rest =>
    have hsize := c.utf8Size_pos
    rw [takeBytes, if_neg (by omega)]

@[simp] theorem dropBytes_zero (text : Text) : dropBytes 0 text = text := by
  cases text with
  | nil => rfl
  | cons c rest =>
    have hsize := c.utf8Size_pos
    rw [dropBytes, if_neg (by omega)]

/-- Enough bytes take a piece as a whole. -/
theorem takeBytes_append {before : Text} {count : Nat} (h : byteLength before ≤ count)
    (after : Text) : takeBytes count (before ++ after) =
      before ++ takeBytes (count - byteLength before) after := by
  induction before generalizing count with
  | nil => rfl
  | cons c rest ih =>
    rw [byteLength] at h
    rw [List.cons_append, takeBytes, if_pos (by omega), ih (by omega), byteLength,
      Nat.sub_add_eq]
    rfl

theorem dropBytes_append {before : Text} {count : Nat} (h : byteLength before ≤ count)
    (after : Text) : dropBytes count (before ++ after) =
      dropBytes (count - byteLength before) after := by
  have hall := takeBytes_append_dropBytes count (before ++ after)
  rw [takeBytes_append h, List.append_assoc] at hall
  have hrest := takeBytes_append_dropBytes (count - byteLength before) after
  exact List.append_cancel_left ((List.append_cancel_left hall).trans hrest.symm)

/-- Of two ways to cut a text, one cuts inside the first piece of the other. -/
theorem exists_append_of_byteLength_le {front back before after : Text}
    (h : front ++ back = before ++ after) (hle : byteLength front ≤ byteLength before) :
    ∃ between, before = front ++ between ∧ back = between ++ after := by
  rcases List.append_eq_append_iff.1 h with ⟨between, hbefore, hback⟩ | ⟨between, hfront, hafter⟩
  · exact ⟨between, hbefore, hback⟩
  · rcases between with _ | ⟨c, rest⟩
    · exact ⟨[], by rw [hfront, List.append_nil, List.append_nil], hafter.symm⟩
    · have hsize := c.utf8Size_pos
      rw [hfront, byteLength_append, byteLength] at hle
      omega

/-- Two ways to cut a text at the same byte are the same. -/
theorem append_inj_of_byteLength_eq {front back before after : Text}
    (h : front ++ back = before ++ after) (heq : byteLength front = byteLength before) :
    front = before ∧ back = after := by
  obtain ⟨between, rfl, rfl⟩ := exists_append_of_byteLength_le h (Nat.le_of_eq heq)
  rcases between with _ | ⟨c, between⟩
  · exact ⟨(List.append_nil front).symm, rfl⟩
  · have hsize := c.utf8Size_pos
    rw [byteLength_append, byteLength] at heq
    omega

/-! ## Joined texts -/

@[simp] theorem joined_singleton (separator text : Text) : joined separator [text] = text :=
  List.intercalate_singleton

theorem joined_cons_cons (separator text next : Text) (rest : List Text) :
    joined separator (text :: next :: rest) =
      text ++ separator ++ joined separator (next :: rest) := by
  rw [joined, joined, List.intercalate_cons_cons]

theorem infix_joined_of_mem {separator text : Text} {texts : List Text} (h : text ∈ texts) :
    text <:+: joined separator texts := by
  induction texts with
  | nil => simp at h
  | cons first rest ih =>
    rcases rest with _ | ⟨next, rest⟩
    · rw [List.mem_singleton.1 h]
      exact (joined_singleton separator first).symm ▸ List.infix_refl first
    · rw [joined_cons_cons]
      rcases List.mem_cons.1 h with rfl | hmem
      · rw [List.append_assoc]
        exact (List.prefix_append _ _).isInfix
      · exact (ih hmem).trans (List.suffix_append _ _).isInfix

end Text

namespace Script

/-! ## Edits in order -/

/-- The order of edits is that of their starts. -/
theorem inOrder_eq_insertionSort (edits : List Edit) :
    inOrder edits = edits.insertionSort (Order.Preimage Edit.start (· ≤ ·)) := by
  have hinsert : ∀ (edit : Edit) (edits : List Edit),
      insertEdit edit edits = edits.orderedInsert (Order.Preimage Edit.start (· ≤ ·)) edit := by
    intro edit edits
    induction edits with
    | nil => rfl
    | cons next rest ih => rw [insertEdit, ih]; rfl
  induction edits with
  | nil => rfl
  | cons edit rest ih =>
    rw [inOrder, List.foldr_cons, ← inOrder, ih, hinsert]
    rfl

/-- Ordering edits neither drops nor adds one. -/
theorem inOrder_perm (edits : List Edit) : (inOrder edits).Perm edits := by
  rw [inOrder_eq_insertionSort]
  exact List.perm_insertionSort _ _

/-- Edits in order start one behind the other. -/
theorem pairwise_inOrder (edits : List Edit) :
    (inOrder edits).Pairwise fun edit next => edit.start ≤ next.start := by
  rw [inOrder_eq_insertionSort]
  exact List.pairwise_insertionSort (Order.Preimage Edit.start (· ≤ ·)) edits

/-- Edits that come in order are applied as they are. -/
theorem inOrder_of_pairwise {edits : List Edit} (h : edits.Pairwise fun edit next =>
    edit.start ≤ next.start) : inOrder edits = edits := by
  rw [inOrder_eq_insertionSort]
  exact List.Pairwise.insertionSort_eq h

/-- What stands before all edits stays. -/
theorem spliceFrom_append {offset : Nat} {before : Text} {edits : List Edit}
    (h : ∀ edit ∈ edits, offset + Text.byteLength before ≤ edit.start ∧ edit.start ≤ edit.stop)
    (after : Text) : spliceFrom offset (before ++ after) edits =
      before ++ spliceFrom (offset + Text.byteLength before) after edits := by
  rcases edits with _ | ⟨edit, rest⟩
  · rfl
  · obtain ⟨hstart, hstop⟩ := h edit List.mem_cons_self
    rw [spliceFrom, spliceFrom, Text.takeBytes_append (by omega), Text.dropBytes_append (by omega),
      Nat.sub_add_eq, Nat.sub_add_eq]
    simp only [List.append_assoc]

/-! ## Pieces -/

/-- An id in a text, with what stands between it and the id before. -/
structure Piece where
  gap : Text
  found : IdSpan

/-- The text made of some pieces and a tail, where `write` says what stands for an id. -/
def assembled (write : IdSpan → Text) (pieces : List Piece) (tail : Text) : Text :=
  pieces.flatMap (fun piece => piece.gap ++ write piece.found) ++ tail

/-- The ids have the bytes at which they stand, when the first gap starts at byte `offset`. -/
def Positioned : Nat → List Piece → Prop
  | _, [] => True
  | offset, piece :: rest =>
    piece.found.start = offset + Text.byteLength piece.gap ∧
      piece.found.stop = piece.found.start + Text.byteLength piece.found.id ∧
      Positioned piece.found.stop rest

@[simp] theorem assembled_nil (write : IdSpan → Text) (tail : Text) :
    assembled write [] tail = tail := rfl

theorem assembled_cons (write : IdSpan → Text) (piece : Piece) (rest : List Piece) (tail : Text) :
    assembled write (piece :: rest) tail =
      piece.gap ++ write piece.found ++ assembled write rest tail := by
  simp [assembled]

theorem assembled_append (write : IdSpan → Text) (pieces more : List Piece) (tail : Text) :
    assembled write (pieces ++ more) tail = assembled write pieces (assembled write more tail) := by
  simp [assembled]

theorem assembled_congr {write other : IdSpan → Text} {pieces : List Piece}
    (h : ∀ piece ∈ pieces, write piece.found = other piece.found) (tail : Text) :
    assembled write pieces tail = assembled other pieces tail := by
  induction pieces with
  | nil => rfl
  | cons piece rest ih =>
    obtain ⟨hpiece, hrest⟩ := List.forall_mem_cons.1 h
    rw [assembled_cons, assembled_cons, hpiece, ih hrest]

/-- Ids stand behind the offset, one behind the other. -/
theorem Positioned.le_start {offset : Nat} {pieces : List Piece} (h : Positioned offset pieces) :
    ∀ piece ∈ pieces, offset ≤ piece.found.start ∧ piece.found.start ≤ piece.found.stop := by
  induction pieces generalizing offset with
  | nil => simp
  | cons piece rest ih =>
    obtain ⟨hstart, hstop, hrest⟩ := h
    rw [List.forall_mem_cons]
    refine ⟨by omega, fun other hmem => ?_⟩
    have hother := ih hrest other hmem
    omega

/-- What an edit writes for an id. -/
def written (edit : IdSpan → Option Edit) (found : IdSpan) : Text :=
  ((edit found).map Edit.text).getD found.id

/-- An edit that puts an id in the place of another takes the bytes of that one. -/
theorem IdSpan.span_of_edit? {found : IdSpan} {id : Text} {edit : Edit}
    (h : found.edit? id = some edit) : edit.start = found.start ∧ edit.stop = found.stop := by
  unfold IdSpan.edit? at h
  split at h
  · simp at h
  · obtain rfl := Option.some.inj h
    exact ⟨rfl, rfl⟩

theorem IdSpan.text_edit? (found : IdSpan) (id : Text) :
    ((found.edit? id).map Edit.text).getD found.id = id := by
  unfold IdSpan.edit?
  split
  · rename_i hsame
    exact hsame.symm
  · rfl

section Splice

variable {edit : IdSpan → Option Edit} {pieces : List Piece} {offset : Nat}
  (hedit : ∀ found e, edit found = some e → e.start = found.start ∧ e.stop = found.stop)

include hedit

theorem le_start_of_mem_edits (h : Positioned offset pieces) :
    ∀ e ∈ (pieces.map Piece.found).filterMap edit, offset ≤ e.start ∧ e.start ≤ e.stop := by
  intro e hmem
  obtain ⟨found, hfound, heq⟩ := List.mem_filterMap.1 hmem
  obtain ⟨piece, hpiece, rfl⟩ := List.mem_map.1 hfound
  obtain ⟨hstart, hstop⟩ := hedit _ e heq
  have hle := h.le_start piece hpiece
  omega

theorem pairwise_edits (h : Positioned offset pieces) :
    ((pieces.map Piece.found).filterMap edit).Pairwise fun e next => e.start ≤ next.start := by
  induction pieces generalizing offset with
  | nil => exact .nil
  | cons piece rest ih =>
    obtain ⟨hstart, hstop, hrest⟩ := h
    rw [List.map_cons, List.filterMap_cons]
    split
    · exact ih hrest
    · rename_i e he
      obtain ⟨hestart, hestop⟩ := hedit _ e he
      refine List.pairwise_cons.2 ⟨fun next hmem => ?_, ih hrest⟩
      have hnext := le_start_of_mem_edits hedit hrest next hmem
      omega

/-- Splicing from a byte on writes the texts of the edits in the places of their ids, in a text of
pieces that starts at that byte. -/
theorem spliceFrom_assembled (h : Positioned offset pieces) (tail : Text) :
    spliceFrom offset (assembled IdSpan.id pieces tail)
      ((pieces.map Piece.found).filterMap edit) = assembled (written edit) pieces tail := by
  -- On the pieces: the offset moves to the end of the id, whether it is edited or not, and that is
  -- where the rest is positioned.
  induction pieces generalizing offset with
  | nil => rfl
  | cons piece rest ih =>
    obtain ⟨hstart, hstop, hrest⟩ := h
    have hlength : Text.byteLength (piece.gap ++ piece.found.id) = piece.found.stop - offset := by
      rw [Text.byteLength_append]
      omega
    rw [List.map_cons, List.filterMap_cons, assembled_cons, assembled_cons]
    split
    · -- an id that is not edited stays, like what stands before it
      rename_i hnone
      have hbehind : ∀ e ∈ (rest.map Piece.found).filterMap edit,
          offset + Text.byteLength (piece.gap ++ piece.found.id) ≤ e.start ∧ e.start ≤ e.stop := by
        intro e hmem
        have hle := le_start_of_mem_edits hedit hrest e hmem
        omega
      rw [spliceFrom_append hbehind, hlength,
        show offset + (piece.found.stop - offset) = piece.found.stop by omega, ih hrest]
      simp [written, hnone]
    · rename_i e he
      obtain ⟨hestart, hestop⟩ := hedit _ e he
      -- the edit takes the bytes of the id: what stands before it is kept, the id is dropped
      have hgap : Text.takeBytes (e.start - offset)
          (piece.gap ++ piece.found.id ++ assembled IdSpan.id rest tail) = piece.gap := by
        rw [List.append_assoc, Text.takeBytes_append (by omega),
          show e.start - offset - Text.byteLength piece.gap = 0 by omega, Text.takeBytes_zero,
          List.append_nil]
      have hrest' : Text.dropBytes (e.stop - offset)
          (piece.gap ++ piece.found.id ++ assembled IdSpan.id rest tail) =
            assembled IdSpan.id rest tail := by
        rw [Text.dropBytes_append (by omega), hlength,
          show e.stop - offset - (piece.found.stop - offset) = 0 by omega, Text.dropBytes_zero]
      rw [spliceFrom, hgap, hrest', hestop, ih hrest]
      simp [written, he]

/-- Splicing edits at some of the ids writes their texts there and leaves everything else. -/
theorem splice_assembled (h : Positioned 0 pieces) (tail : Text) :
    splice (assembled IdSpan.id pieces tail) ((pieces.map Piece.found).filterMap edit) =
      assembled (written edit) pieces tail := by
  rw [splice, inOrder_of_pairwise (pairwise_edits hedit h), spliceFrom_assembled hedit h]

end Splice

/-- Splicing one edit replaces the piece at its bytes. -/
theorem splice_singleton (before old after new : Text) :
    splice (before ++ old ++ after)
        [⟨Text.byteLength before, Text.byteLength (before ++ old), new⟩] =
      before ++ new ++ after := by
  rw [splice, inOrder_of_pairwise (List.pairwise_singleton _ _), spliceFrom, spliceFrom,
    Nat.sub_zero, Nat.sub_zero, Text.dropBytes_append (Nat.le_refl _), Nat.sub_self,
    Text.dropBytes_zero, List.append_assoc before, Text.takeBytes_append (Nat.le_refl _),
    Nat.sub_self, Text.takeBytes_zero, List.append_nil]

end Script

end ModuleCompiler
