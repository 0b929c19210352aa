import ModuleCompiler.Proofs.Script.Layout

/-!
# Changes in a text

A text that is changed in some places is made of pieces that stay and pieces that go, and other
texts come in the place of those. The edits that make the changes have the bytes at which the pieces
that go stand. The same pieces, read with both sides exchanged, are the changes back.

One list of `Change`s so gives three things: the text before, the text after and the edits between
the two. `spliceFrom_edits` says that they fit together, and `Change.source_map_exchanged` and
`Change.target_map_exchanged` that the changes back lead back.
-/

namespace ModuleCompiler.Script

/-- A change in a text: behind what is kept, `old` goes and `new` comes. -/
structure Change where
  kept : Text
  old : Text
  new : Text

namespace Change

/-- The change back. -/
def exchanged (change : Change) : Change :=
  ⟨change.kept, change.new, change.old⟩

/-- The text before the changes, where `tail` stands behind the last of them. -/
def source (changes : List Change) (tail : Text) : Text :=
  changes.flatMap (fun change => change.kept ++ change.old) ++ tail

/-- The text after the changes. -/
def target (changes : List Change) (tail : Text) : Text :=
  changes.flatMap (fun change => change.kept ++ change.new) ++ tail

/-- The edits that make the changes, when the first piece starts at byte `offset`. -/
def edits : Nat → List Change → List Edit
  | _, [] => []
  | offset, change :: rest =>
    let start := offset + Text.byteLength change.kept
    let stop := start + Text.byteLength change.old
    ⟨start, stop, change.new⟩ :: edits stop rest

@[simp] theorem source_nil (tail : Text) : source [] tail = tail := rfl

@[simp] theorem target_nil (tail : Text) : target [] tail = tail := rfl

theorem source_cons (change : Change) (rest : List Change) (tail : Text) :
    source (change :: rest) tail = change.kept ++ (change.old ++ source rest tail) := by
  simp [source]

theorem target_cons (change : Change) (rest : List Change) (tail : Text) :
    target (change :: rest) tail = change.kept ++ change.new ++ target rest tail := by
  simp [target]

/-- The changes back start from the text after the changes. -/
theorem source_map_exchanged (changes : List Change) (tail : Text) :
    source (changes.map exchanged) tail = target changes tail := by
  simp [source, target, exchanged, List.flatMap_map]

/-- The changes back lead to the text before the changes. -/
theorem target_map_exchanged (changes : List Change) (tail : Text) :
    target (changes.map exchanged) tail = source changes tail := by
  simp [source, target, exchanged, List.flatMap_map]

theorem le_start_of_mem_edits {offset : Nat} {changes : List Change} :
    ∀ edit ∈ edits offset changes, offset ≤ edit.start ∧ edit.start ≤ edit.stop := by
  induction changes generalizing offset with
  | nil => simp [edits]
  | cons change rest ih =>
    rw [edits, List.forall_mem_cons]
    refine ⟨⟨Nat.le_add_right _ _, Nat.le_add_right _ _⟩, fun edit hmem => ?_⟩
    have hedit := ih edit hmem
    omega

/-- Edits of changes come in the order of the changes. -/
theorem pairwise_edits (offset : Nat) (changes : List Change) :
    (edits offset changes).Pairwise fun edit next => edit.start ≤ next.start := by
  induction changes generalizing offset with
  | nil => exact .nil
  | cons change rest ih =>
    refine List.pairwise_cons.2 ⟨fun next hmem => ?_, ih _⟩
    have hnext := le_start_of_mem_edits next hmem
    exact Nat.le_trans (Nat.le_add_right _ _) hnext.1

end Change

/-- Splicing the edits of some changes makes the changes. -/
theorem spliceFrom_edits (offset : Nat) (changes : List Change) (tail : Text) :
    spliceFrom offset (Change.source changes tail) (Change.edits offset changes) =
      Change.target changes tail := by
  induction changes generalizing offset with
  | nil => rfl
  | cons change rest ih =>
    rw [Change.source_cons, Change.target_cons, Change.edits, spliceFrom, Nat.add_assoc,
      Nat.add_sub_cancel_left, Nat.add_sub_cancel_left, Text.takeBytes_append (Nat.le_refl _),
      Nat.sub_self, Text.takeBytes_zero, List.append_nil,
      Text.dropBytes_append (Nat.le_add_right _ _), Nat.add_sub_cancel_left,
      Text.dropBytes_append (Nat.le_refl _), Nat.sub_self, Text.dropBytes_zero, ih]

end ModuleCompiler.Script
