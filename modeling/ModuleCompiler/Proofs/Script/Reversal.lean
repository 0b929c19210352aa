import Mathlib.Algebra.GroupWithZero.Nat
import ModuleCompiler.Proofs.Script.Slicing

/-!
# Splices taken back

Edits at spans that do not overlap are changes in the source: splicing writes what comes for what
goes and leaves what stays, in whatever order the edits are given. The changes back have edits too.
They put the old texts at the spans that the new ones have in the result, so a splice can be taken
back.

`Separate` are the edits that this is about, and `Separate.exists_changes` their changes. The edit
that takes another one back, `Edit.inverse`, is computed from the edits alone: it puts the old text
at the span that the new one has in the result, which `moved` finds by counting what the edits in
front of it put in and take out. `map_inverse_edits` says that these are the edits of the changes
back.
-/

namespace ModuleCompiler.Script

variable {source result : Text} {edits other : List Edit} {offset : Nat}

/-! ## Edits of separate spans -/

/-- The spans are pieces of the source that do not overlap, and no two of them start at the same
byte. A span without bytes overlaps another when it lies inside of it. -/
structure Separate (source : Text) (edits : List Edit) : Prop where
  isPiece : ∀ edit ∈ edits, edit.start ≤ edit.stop ∧ Text.IsBoundary source edit.start ∧
    Text.IsBoundary source edit.stop
  disjoint : edits.Pairwise fun edit next => edit.stop ≤ next.start ∨ next.stop ≤ edit.start
  starts_nodup : (edits.map Edit.start).Nodup

/-- Splicing the edits gives the result, and none of its cuts is out of place. -/
structure SplicesTo (source : Text) (edits : List Edit) (result : Text) : Prop where
  splice_eq : splice source edits = result
  splice?_eq : splice? source edits = some result

theorem splicesTo_of_splice? (hspans : ∀ edit ∈ edits, edit.start ≤ edit.stop)
    (h : splice? source edits = some result) : SplicesTo source edits result :=
  ⟨spliceFrom_of_spliceFrom? []
    (fun edit hmem => hspans edit ((inOrder_perm edits).mem_iff.1 hmem)) h, h⟩

/-- The order of edits with different starts does not depend on the order they are given in. -/
theorem inOrder_eq_of_perm (hstarts : (edits.map Edit.start).Nodup) (h : other.Perm edits) :
    inOrder other = inOrder edits := by
  have hperm : (inOrder other).Perm (inOrder edits) :=
    (inOrder_perm other).trans (h.trans (inOrder_perm edits).symm)
  refine List.Perm.eq_of_pairwise (fun edit next hedit hnext hle hge => ?_)
    (pairwise_inOrder other) (pairwise_inOrder edits) hperm
  exact List.inj_on_of_nodup_map hstarts (h.mem_iff.1 ((inOrder_perm other).mem_iff.1 hedit))
    ((inOrder_perm edits).mem_iff.1 hnext) (Nat.le_antisymm hle hge)

/-- What edits with different starts splice to does not depend on their order. -/
theorem SplicesTo.perm (h : SplicesTo source edits result)
    (hstarts : (edits.map Edit.start).Nodup) (hperm : other.Perm edits) :
    SplicesTo source other result := by
  have horder := inOrder_eq_of_perm hstarts hperm
  refine ⟨?_, ?_⟩
  · rw [splice, horder]
    exact h.splice_eq
  · rw [splice?, horder]
    exact h.splice?_eq

/-- Splicing the edits of some changes makes them, with all cuts in place. -/
theorem spliceFrom?_edits (front : Text) (changes : List Change) (tail : Text) :
    spliceFrom? (front ++ Change.source changes tail) (Text.byteLength front)
      (Change.edits (Text.byteLength front) changes) = some (Change.target changes tail) := by
  induction changes generalizing front with
  | nil =>
    refine Text.slice?_eq_some_iff.2 ⟨front, [], by simp, rfl, ?_⟩
    rw [Change.source_nil, Change.target_nil, Text.byteLength_append]
  | cons change rest ih =>
    have hbehind := ih (front ++ change.kept ++ change.old)
    rw [Text.byteLength_append, Text.byteLength_append] at hbehind
    simp only [List.append_assoc] at hbehind
    have hkept : Text.slice? (Text.byteLength front)
        (Text.byteLength front + Text.byteLength change.kept)
        (front ++ (change.kept ++ (change.old ++ Change.source rest tail))) = some change.kept :=
      Text.slice?_eq_some_iff.2 ⟨front, _, rfl, rfl, rfl⟩
    rw [Change.source_cons, Change.target_cons, Change.edits]
    simp [spliceFrom?, hkept, hbehind]

theorem splice?_edits (changes : List Change) (tail : Text) :
    splice? (Change.source changes tail) (Change.edits 0 changes) =
      some (Change.target changes tail) := by
  rw [splice?, inOrder_of_pairwise (Change.pairwise_edits 0 changes)]
  exact spliceFrom?_edits [] changes tail

/-- The edits of some changes make them. -/
theorem splicesTo_edits (changes : List Change) (tail : Text) :
    SplicesTo (Change.source changes tail) (Change.edits 0 changes) (Change.target changes tail) :=
  splicesTo_of_splice? (fun edit hmem => (Change.le_start_of_mem_edits edit hmem).2)
    (splice?_edits changes tail)

namespace Separate

theorem pairwise_inOrder (h : Separate source edits) : (inOrder edits).Pairwise
    fun edit next => edit.start < next.start ∧ edit.stop ≤ next.start := by
  have hdisjoint : (inOrder edits).Pairwise
      fun edit next => edit.stop ≤ next.start ∨ next.stop ≤ edit.start :=
    h.disjoint.perm (inOrder_perm edits).symm Or.symm
  have hdistinct : (inOrder edits).Pairwise fun edit next => edit.start ≠ next.start :=
    List.pairwise_map.1 (((inOrder_perm edits).map Edit.start).nodup_iff.2 h.starts_nodup)
  refine (((Script.pairwise_inOrder edits).and hdistinct).and hdisjoint).imp_of_mem ?_
  rintro edit next - hnext ⟨⟨hle, hne⟩, hdisjoint⟩
  have hpiece := (h.isPiece next ((inOrder_perm edits).mem_iff.1 hnext)).1
  omega

/-- Edits of separate spans make changes at these spans. -/
theorem exists_changes (h : Separate source edits) : ∃ changes tail,
    source = Change.source changes tail ∧ Change.edits 0 changes = inOrder edits ∧
      SplicesTo source edits (Change.target changes tail) := by
  have hsplice := splice?_eq_some h.isPiece (h.pairwise_inOrder.imp And.right)
  obtain ⟨changes, tail, hsource, htarget, hedits⟩ := Script.exists_changes []
    (fun edit hmem => (h.isPiece edit ((inOrder_perm edits).mem_iff.1 hmem)).1) hsplice
  rw [htarget] at hsplice
  exact ⟨changes, tail, hsource, hedits, htarget, hsplice⟩

end Separate

/-! ## Taking a splice back -/

/-- The byte of the spliced text that stands where byte `offset` stands in the source: the edits in
front of it put their texts in and take their spans out. -/
def moved (edits : List Edit) (offset : Nat) : Nat :=
  let front := edits.filter (·.start < offset)
  offset + (front.map fun edit => Text.byteLength edit.text).sum -
    (front.map fun edit => edit.stop - edit.start).sum

/-- The edit of the spliced text that takes the text of an edit out and puts the old text back. -/
def Edit.inverse (source : Text) (edits : List Edit) (edit : Edit) : Edit :=
  let start := moved edits edit.start
  ⟨start, start + Text.byteLength edit.text, (Text.slice? edit.start edit.stop source).getD []⟩

/-- The edits that take a splice back, in the order of the source. -/
def inverses (source : Text) (edits : List Edit) : List Edit :=
  (inOrder edits).map (Edit.inverse source edits)

theorem moved_eq_of_perm (h : other.Perm edits) : moved other = moved edits := by
  funext offset
  have hfront := h.filter (·.start < offset)
  rw [moved, moved, (hfront.map _).sum_nat, (hfront.map _).sum_nat]

/-- Of edits that come in order, those in front of one are counted for it. -/
theorem Edit.inverse_eq {done later : List Edit} {edit : Edit} {old : Text} {shifted : Nat}
    (hstarts : (done ++ edit :: later).Pairwise fun edit next => edit.start < next.start)
    (hold : Text.slice? edit.start edit.stop source = some old)
    (hshifted : shifted + (done.map fun edit => edit.stop - edit.start).sum =
      edit.start + (done.map fun edit => Text.byteLength edit.text).sum) :
    Edit.inverse source (done ++ edit :: later) edit =
      ⟨shifted, shifted + Text.byteLength edit.text, old⟩ := by
  obtain ⟨-, hlater, hdone⟩ := List.pairwise_append.1 hstarts
  -- in front of the edit start exactly the ones that are done
  have hfront : (done ++ edit :: later).filter (·.start < edit.start) = done := by
    have hnone : (edit :: later).filter (·.start < edit.start) = [] := by
      refine List.filter_eq_nil_iff.2 (List.forall_mem_cons.2 ⟨by simp, fun next hmem => ?_⟩)
      have hnext := (List.pairwise_cons.1 hlater).1 next hmem
      simpa using Nat.le_of_lt hnext
    rw [List.filter_append, hnone, List.append_nil, List.filter_eq_self]
    exact fun next hmem => by simpa using hdone next hmem edit List.mem_cons_self
  have hmoved : moved (done ++ edit :: later) edit.start = shifted := by
    rw [moved, hfront]
    omega
  rw [Edit.inverse, hmoved, hold]
  rfl

/-- Behind the edits that are done, the inverse edits are those of the changes back. The edits that
are done have moved the byte at which the changes start from `offset` to `shifted`. -/
theorem map_inverse_edits (done : List Edit) (front : Text) (shifted : Nat) (changes : List Change)
    (tail : Text) (hoffset : Text.byteLength front = offset)
    (hstarts : (done ++ Change.edits offset changes).Pairwise
      fun edit next => edit.start < next.start)
    (hshifted : shifted + (done.map fun edit => edit.stop - edit.start).sum =
      offset + (done.map fun edit => Text.byteLength edit.text).sum) :
    (Change.edits offset changes).map
        (Edit.inverse (front ++ Change.source changes tail) (done ++ Change.edits offset changes)) =
      Change.edits shifted (changes.map Change.exchanged) := by
  -- On the changes. What is done moves from one side to the other: the edit joins those in front,
  -- and the byte behind it is moved by its texts, as `hshifted` keeps account of.
  induction changes generalizing done front offset shifted with
  | nil => rfl
  | cons change rest ih =>
    obtain ⟨kept, old, new⟩ := change
    let edit : Edit := ⟨offset + Text.byteLength kept,
      offset + Text.byteLength kept + Text.byteLength old, new⟩
    -- the edit takes the piece of the source that goes
    have hold : Text.slice? edit.start edit.stop
        (front ++ Change.source (⟨kept, old, new⟩ :: rest) tail) = some old := by
      refine Text.slice?_eq_some_iff.2 ⟨front ++ kept, Change.source rest tail, ?_, ?_, rfl⟩
      · simp [Change.source_cons]
      · rw [Text.byteLength_append, hoffset]
    have hedit : Edit.inverse (front ++ Change.source (⟨kept, old, new⟩ :: rest) tail)
        (done ++ edit :: Change.edits edit.stop rest) edit =
          ⟨shifted + Text.byteLength kept, shifted + Text.byteLength kept + Text.byteLength new,
            old⟩ := by
      refine Edit.inverse_eq hstarts hold ?_
      dsimp only [edit]
      omega
    have hstop : Text.byteLength (front ++ (kept ++ old)) = edit.stop := by
      simp only [Text.byteLength_append, hoffset, edit]
      omega
    have hrest := ih (done ++ [edit]) (front ++ (kept ++ old))
      (shifted + Text.byteLength kept + Text.byteLength new) hstop
    simp only [List.append_assoc, List.singleton_append, List.map_append, List.sum_append,
      List.map_singleton, List.sum_singleton] at hrest
    refine congrArg₂ List.cons hedit ?_
    rw [Change.source_cons]
    refine hrest hstarts ?_
    dsimp only [edit]
    omega

/-- The inverse edits are those of the changes back. -/
theorem Separate.inverses_eq {changes : List Change} {tail : Text}
    (h : Separate (Change.source changes tail) edits)
    (hedits : Change.edits 0 changes = inOrder edits) :
    inverses (Change.source changes tail) edits =
      Change.edits 0 (changes.map Change.exchanged) := by
  have hmoved : Edit.inverse (Change.source changes tail) edits =
      Edit.inverse (Change.source changes tail) (inOrder edits) := by
    funext edit
    rw [Edit.inverse, Edit.inverse, moved_eq_of_perm (inOrder_perm edits)]
  rw [inverses, hmoved, ← hedits]
  refine map_inverse_edits [] [] 0 changes tail rfl ?_ rfl
  rw [List.nil_append, hedits]
  exact h.pairwise_inOrder.imp And.left

/-- Splicing edits of separate spans writes each text in the place of its span and keeps everything
else, in whatever order the edits are given. Splicing the old texts into the result, at the spans
that the new ones have there, gives the source again: in the order of the source, and in any order
when no two of these spans start at the same byte. -/
theorem splice_exact_and_reversible (h : Separate source edits) :
    ∃ changes tail, source = Change.source changes tail ∧ (Change.edits 0 changes).Perm edits ∧
      (∀ other, other.Perm edits → SplicesTo source other (Change.target changes tail)) ∧
      SplicesTo (splice source edits) (inverses source edits) source ∧
      ∀ back, back.Perm (inverses source edits) → (back.map Edit.start).Nodup →
        SplicesTo (splice source edits) back source := by
  obtain ⟨changes, tail, rfl, hedits, hsplice⟩ := h.exists_changes
  have hback : SplicesTo (splice (Change.source changes tail) edits)
      (inverses (Change.source changes tail) edits) (Change.source changes tail) := by
    have hchanges := splicesTo_edits (changes.map Change.exchanged) tail
    rwa [Change.source_map_exchanged, Change.target_map_exchanged, ← h.inverses_eq hedits,
      ← hsplice.splice_eq] at hchanges
  refine ⟨changes, tail, rfl, hedits ▸ inOrder_perm edits,
    fun other hperm => hsplice.perm h.starts_nodup hperm, hback, fun back hperm hstarts => ?_⟩
  exact hback.perm ((hperm.map Edit.start).nodup_iff.1 hstarts) hperm

/-- A source with a character of two bytes. -/
def accentedText : Text :=
  "aé bcd"

/-- Edits from its end to its start, one that takes text out, one that puts text in and one that
does both. -/
def crossedEdits : List Edit :=
  [⟨5, 7, ""⟩, ⟨4, 4, "x"⟩, ⟨1, 3, "long"⟩]

theorem splice_exact_and_reversible_crossedEdits :
    Separate accentedText crossedEdits ∧ splice accentedText crossedEdits = "along xb" ∧
      inverses accentedText crossedEdits = [⟨1, 5, "é"⟩, ⟨6, 7, ""⟩, ⟨8, 8, "cd"⟩] ∧
      SplicesTo "along xb" (inverses accentedText crossedEdits) accentedText := by
  have hseparate : Separate accentedText crossedEdits :=
    ⟨by decide +kernel, by decide +kernel, by decide +kernel⟩
  have hresult : splice accentedText crossedEdits = "along xb" := by decide +kernel
  obtain ⟨_, _, -, -, -, hback, -⟩ := splice_exact_and_reversible hseparate
  rw [hresult] at hback
  exact ⟨hseparate, hresult, by decide +kernel, hback⟩

/-- Inverse edits start at the same byte where text is taken out right in front of another span. In
the other order the cuts between them are out of place. -/
example : inverses "abcdefgh" [⟨3, 5, "X"⟩, ⟨1, 3, ""⟩] = [⟨1, 1, "bc"⟩, ⟨1, 2, "de"⟩] ∧
    splice? "aXfgh" [⟨1, 2, "de"⟩, ⟨1, 1, "bc"⟩] = none := by
  decide +kernel

end ModuleCompiler.Script
