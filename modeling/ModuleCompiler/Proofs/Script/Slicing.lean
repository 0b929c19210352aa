import ModuleCompiler.Proofs.Script.Changes

/-!
# Splicing with all cuts checked

A piece can be cut out of a text only if it starts before it ends and both are places where a
character starts or the text ends. `splice` cuts where it can. `splice?` cuts in the same places and
fails where this is not possible, so that it gives a result says that no cut of the splice is out of
place.

What is cut out is a piece of the text, at the bytes asked for (`Text.slice?_eq_some_iff`). So the
cuts of a splice take the source apart, and if all are in place the splice makes changes whose edits
are the ones that were given (`exists_changes`). That they are in place follows for edits of spans
that do not overlap (`splice?_eq_some`).
-/

namespace ModuleCompiler

/-! ## Slices -/

namespace Text

variable {text piece : Text} {offset start stop : Nat}

/-- A character of the text starts at the byte, or the text ends there. -/
def IsBoundary (text : Text) (offset : Nat) : Prop :=
  byteLength (takeBytes offset text) = offset

instance (text : Text) (offset : Nat) : Decidable (IsBoundary text offset) :=
  inferInstanceAs (Decidable (byteLength (takeBytes offset text) = offset))

/-- At a boundary the text can be cut in two. -/
theorem isBoundary_iff : IsBoundary text offset ↔
    ∃ before after, text = before ++ after ∧ byteLength before = offset := by
  constructor
  · exact fun h => ⟨_, _, (takeBytes_append_dropBytes offset text).symm, h⟩
  · rintro ⟨before, after, rfl, rfl⟩
    rw [IsBoundary, takeBytes_append (Nat.le_refl _), Nat.sub_self, takeBytes_zero, List.append_nil]

theorem isBoundary_zero (text : Text) : IsBoundary text 0 :=
  isBoundary_iff.2 ⟨[], text, rfl, rfl⟩

theorem isBoundary_byteLength (text : Text) : IsBoundary text (byteLength text) :=
  isBoundary_iff.2 ⟨text, [], (List.append_nil text).symm, rfl⟩

theorem IsBoundary.le_byteLength (h : IsBoundary text offset) : offset ≤ byteLength text := by
  obtain ⟨before, after, rfl, rfl⟩ := isBoundary_iff.1 h
  rw [byteLength_append]
  exact Nat.le_add_right _ _

/-- The piece of the text from byte `start` to byte `stop`. -/
def slice? (start stop : Nat) (text : Text) : Option Text :=
  if start ≤ stop ∧ IsBoundary text start ∧ IsBoundary text stop then
    some (takeBytes (stop - start) (dropBytes start text))
  else none

/-- What is cut out is a piece of the text, at the bytes asked for. -/
theorem slice?_eq_some_iff : slice? start stop text = some piece ↔
    ∃ before after, text = before ++ (piece ++ after) ∧ byteLength before = start ∧
      start + byteLength piece = stop := by
  have hcut : ∀ before inner after : Text,
      takeBytes (byteLength (before ++ inner) - byteLength before)
        (dropBytes (byteLength before) (before ++ (inner ++ after))) = inner := by
    intro before inner after
    rw [dropBytes_append (Nat.le_refl _), Nat.sub_self, dropBytes_zero, byteLength_append,
      Nat.add_sub_cancel_left, takeBytes_append (Nat.le_refl _), Nat.sub_self, takeBytes_zero,
      List.append_nil]
  constructor
  · intro h
    rw [slice?, Option.ite_none_right_eq_some] at h
    obtain ⟨⟨hle, hstart, hstop⟩, hpiece⟩ := h
    obtain ⟨before, rest, rfl, rfl⟩ := isBoundary_iff.1 hstart
    obtain ⟨front, after, heq, rfl⟩ := isBoundary_iff.1 hstop
    obtain ⟨inner, rfl, rfl⟩ := exists_append_of_byteLength_le heq hle
    rw [hcut] at hpiece
    rw [← Option.some.inj hpiece]
    exact ⟨before, after, rfl, rfl, (byteLength_append _ _).symm⟩
  · rintro ⟨before, after, rfl, rfl, rfl⟩
    have hstart : IsBoundary (before ++ (piece ++ after)) (byteLength before) :=
      isBoundary_iff.2 ⟨_, _, rfl, rfl⟩
    have hstop : IsBoundary (before ++ (piece ++ after)) (byteLength (before ++ piece)) :=
      isBoundary_iff.2 ⟨_, _, (List.append_assoc _ _ _).symm, rfl⟩
    have hle : byteLength before ≤ byteLength (before ++ piece) := by
      rw [byteLength_append]
      exact Nat.le_add_right _ _
    rw [← byteLength_append, slice?, if_pos ⟨hle, hstart, hstop⟩, hcut]

theorem exists_slice?_eq_some_iff : (∃ piece, slice? start stop text = some piece) ↔
    start ≤ stop ∧ IsBoundary text start ∧ IsBoundary text stop := by
  simp only [slice?, Option.ite_none_right_eq_some, exists_and_left, Option.some.injEq,
    exists_eq', and_true]

end Text

namespace Script

/-! ## Splicing -/

/-- Applies edits in order, where the source is written up to byte `offset`. -/
def spliceFrom? (source : Text) (offset : Nat) : List Edit → Option Text
  | [] => Text.slice? offset (Text.byteLength source) source
  | edit :: edits => do
    let kept ← Text.slice? offset edit.start source
    let behind ← spliceFrom? source edit.stop edits
    return kept ++ edit.text ++ behind

/-- The source with each span replaced by its text, if all pieces between the spans can be cut
out. -/
def splice? (source : Text) (edits : List Edit) : Option Text :=
  spliceFrom? source 0 (inOrder edits)

variable {source result : Text} {edits : List Edit} {offset : Nat}

theorem isBoundary_of_spliceFrom? (h : spliceFrom? source offset edits = some result) :
    Text.IsBoundary source offset := by
  have hslice : ∃ stop kept, Text.slice? offset stop source = some kept := by
    cases edits with
    | nil => exact ⟨_, _, h⟩
    | cons edit rest =>
      obtain ⟨kept, hkept, -⟩ := Option.bind_eq_some_iff.1 h
      exact ⟨_, kept, hkept⟩
  obtain ⟨stop, kept, hkept⟩ := hslice
  exact (Text.exists_slice?_eq_some_iff.1 ⟨kept, hkept⟩).2.1

/-- A splice with all cuts in place makes changes, and its edits are theirs. -/
theorem exists_changes (front : Text) {rest : Text}
    (hspans : ∀ edit ∈ edits, edit.start ≤ edit.stop)
    (h : spliceFrom? (front ++ rest) (Text.byteLength front) edits = some result) :
    ∃ changes tail, rest = Change.source changes tail ∧ result = Change.target changes tail ∧
      Change.edits (Text.byteLength front) changes = edits := by
  -- On the edits, with what is written already in front: each takes a piece that stays and one that
  -- goes off the rest of the source.
  induction edits generalizing front rest result with
  | nil =>
    obtain ⟨before, after, heq, hbefore, hstop⟩ := Text.slice?_eq_some_iff.1 h
    obtain ⟨rfl, rfl⟩ := Text.append_inj_of_byteLength_eq heq hbefore.symm
    have hall : (front ++ result) ++ after = (front ++ (result ++ after)) ++ [] := by simp
    obtain ⟨-, rfl⟩ := Text.append_inj_of_byteLength_eq hall (by
      rw [Text.byteLength_append, hstop])
    exact ⟨[], result, by simp, rfl, rfl⟩
  | cons edit edits ih =>
    obtain ⟨hspan, hspans⟩ := List.forall_mem_cons.1 hspans
    obtain ⟨kept, hkept, hmore⟩ := Option.bind_eq_some_iff.1 h
    obtain ⟨behind, hbehind, hresult⟩ := Option.bind_eq_some_iff.1 hmore
    -- the source is cut where the edit starts and where it ends
    obtain ⟨before, after, heq, hbefore, hstart⟩ := Text.slice?_eq_some_iff.1 hkept
    obtain ⟨rfl, rfl⟩ := Text.append_inj_of_byteLength_eq heq hbefore.symm
    obtain ⟨before, back, hcut, hstop⟩ := Text.isBoundary_iff.1 (isBoundary_of_spliceFrom? hbehind)
    rw [← List.append_assoc] at hcut
    obtain ⟨old, rfl, rfl⟩ := Text.exists_append_of_byteLength_le hcut (by
      rw [Text.byteLength_append]
      omega)
    have hback : spliceFrom? (front ++ kept ++ old ++ back)
        (Text.byteLength (front ++ kept ++ old)) edits = some behind := by
      rw [hstop, ← hbehind]
      simp only [List.append_assoc]
    obtain ⟨changes, tail, rfl, rfl, hedits⟩ := ih (front ++ kept ++ old) hspans hback
    let change : Change := ⟨kept, old, edit.text⟩
    refine ⟨change :: changes, tail, (Change.source_cons change changes tail).symm, ?_, ?_⟩
    · rw [Change.target_cons]
      exact (Option.some.inj hresult).symm
    · rw [Text.byteLength_append, Text.byteLength_append] at hedits hstop
      show (⟨Text.byteLength front + Text.byteLength kept, _, edit.text⟩ : Edit) ::
        Change.edits _ changes = edit :: edits
      rw [hedits, hstop, hstart]

/-- A splice whose cuts are in place is what splicing gives. -/
theorem spliceFrom_of_spliceFrom? (front : Text) {rest : Text}
    (hspans : ∀ edit ∈ edits, edit.start ≤ edit.stop)
    (h : spliceFrom? (front ++ rest) (Text.byteLength front) edits = some result) :
    spliceFrom (Text.byteLength front) rest edits = result := by
  obtain ⟨changes, tail, rfl, rfl, rfl⟩ := exists_changes front hspans h
  exact spliceFrom_edits _ changes tail

/-- Edits of spans that do not overlap can be spliced from any place before them on. -/
theorem exists_spliceFrom?_eq_some (hoffset : Text.IsBoundary source offset)
    (hspans : ∀ edit ∈ edits, offset ≤ edit.start ∧ edit.start ≤ edit.stop ∧
      Text.IsBoundary source edit.start ∧ Text.IsBoundary source edit.stop)
    (hdisjoint : edits.Pairwise fun edit next => edit.stop ≤ next.start) :
    ∃ result, spliceFrom? source offset edits = some result := by
  -- On the edits: the end of a span is where the next cut starts, and the next span starts there or
  -- behind it.
  induction edits generalizing offset with
  | nil =>
    exact Text.exists_slice?_eq_some_iff.2
      ⟨hoffset.le_byteLength, hoffset, Text.isBoundary_byteLength source⟩
  | cons edit rest ih =>
    obtain ⟨⟨hle, hspan, hstart, hstop⟩, hrest⟩ := List.forall_mem_cons.1 hspans
    obtain ⟨hnext, hdisjoint⟩ := List.pairwise_cons.1 hdisjoint
    obtain ⟨kept, hkept⟩ := Text.exists_slice?_eq_some_iff.2 ⟨hle, hoffset, hstart⟩
    obtain ⟨behind, hbehind⟩ := ih hstop
      (fun next hmem => ⟨hnext next hmem, (hrest next hmem).2⟩) hdisjoint
    exact ⟨kept ++ edit.text ++ behind, by simp [spliceFrom?, hkept, hbehind]⟩

/-- Edits of spans that do not overlap can be spliced. -/
theorem splice?_eq_some (hspans : ∀ edit ∈ edits, edit.start ≤ edit.stop ∧
      Text.IsBoundary source edit.start ∧ Text.IsBoundary source edit.stop)
    (hdisjoint : (inOrder edits).Pairwise fun edit next => edit.stop ≤ next.start) :
    splice? source edits = some (splice source edits) := by
  have hordered : ∀ edit ∈ inOrder edits, edit.start ≤ edit.stop ∧
      Text.IsBoundary source edit.start ∧ Text.IsBoundary source edit.stop := fun edit hmem =>
    hspans edit ((inOrder_perm edits).mem_iff.1 hmem)
  obtain ⟨result, hresult⟩ := exists_spliceFrom?_eq_some (Text.isBoundary_zero source)
    (fun edit hmem => ⟨Nat.zero_le _, hordered edit hmem⟩) hdisjoint
  have hsplice : splice source edits = result :=
    spliceFrom_of_spliceFrom? [] (fun edit hmem => (hordered edit hmem).1) hresult
  rw [splice?, hresult, hsplice]

end Script

end ModuleCompiler
