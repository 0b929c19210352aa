import ModuleCompiler.Proofs.Script.Respelling

/-!
# Calls in similar views

A call is recognised by what is seen, and its argument ends at the first place where it can. What
stands between two quotes has no part in this, as long as it neither is a quote nor ends the
argument or the line. So two views that differ between quotes only have calls in the same places.

Such views are `Similar`. A recogniser that takes one of them apart takes the other apart as well,
and leaves similar views behind parts in which the same is seen; that is `Alike`, which composes, so
each of the recognisers has one lemma and the call has theirs one after the other
(`Similar.exists_argumentStart?`). A recogniser that fails on one view fails on the other, since
`Similar` is symmetric. `exists_of_callAt?` takes a call apart and `callAt?_of_similar` finds it in
a similar view; `Searched` has the rules by which the search goes from one call to the next.
-/

namespace ModuleCompiler.Script

variable {cells other after after' : List Cell}

/-! ## What a recogniser passes over -/

/-- What is passed over is seen as the pattern. -/
theorem exists_of_dropSeen? {pattern : Text} (h : dropSeen? pattern cells = some after) :
    ∃ passed, cells = passed ++ after ∧ passed.map Cell.seen = pattern := by
  induction pattern generalizing cells with
  | nil => exact ⟨[], Option.some.inj h, rfl⟩
  | cons c pattern ih =>
    rcases cells with _ | ⟨cell, rest⟩
    · simp [dropSeen?] at h
    · rw [dropSeen?] at h
      split at h
      · rename_i hseen
        obtain ⟨passed, rfl, hpassed⟩ := ih h
        exact ⟨cell :: passed, rfl, by rw [List.map_cons, hseen, hpassed]⟩
      · simp at h

theorem dropSeen?_append {front : List Cell} {pattern : Text} (h : front.map Cell.seen = pattern)
    (rest : List Cell) : dropSeen? pattern (front ++ rest) = some rest := by
  induction front generalizing pattern with
  | nil =>
    rw [← h]
    rfl
  | cons cell front ih =>
    rw [← h, List.map_cons, List.cons_append, dropSeen?, if_pos rfl, ih rfl]

theorem suffix_of_dropSeen? {pattern : Text} (h : dropSeen? pattern cells = some after) :
    after <:+ cells := by
  obtain ⟨passed, rfl, -⟩ := exists_of_dropSeen? h
  exact List.suffix_append _ _

theorem dropBlanks_suffix (cells : List Cell) : dropBlanks cells <:+ cells :=
  List.dropWhile_suffix _

theorem dropOptional_suffix (c : Char) (cells : List Cell) : dropOptional c cells <:+ cells := by
  unfold dropOptional
  cases h : dropSeen? [c] cells with
  | none => exact List.suffix_refl _
  | some after => exact suffix_of_dropSeen? h

theorem suffix_of_openParenthesis? (h : openParenthesis? cells = some after) : after <:+ cells :=
  (suffix_of_dropSeen? h).trans (dropBlanks_suffix cells)

theorem suffix_of_closeArgument? (h : closeArgument? cells = some after) : after <:+ cells :=
  (suffix_of_dropSeen? h).trans ((dropBlanks_suffix _).trans (dropOptional_suffix _ cells))

theorem closeArgument?_cons_of_seen {cell : Cell} (h : cell.seen = ')') (rest : List Cell) :
    closeArgument? (cell :: rest) = some rest := by
  have hblank : Unicode.isBlank ')' = false := by decide
  simp [closeArgument?, dropOptional, dropSeen?, dropBlanks, h, hblank]

/-- An argument starts here, and what follows it comes behind. It stands on one line, and has no
closing parenthesis. -/
theorem exists_of_argument? {argument : List Cell} (h : argument? cells = some (argument, after)) :
    (∃ between, cells = argument ++ (between ++ after)) ∧
      ∀ cell ∈ argument, cell.seen ≠ '\n' ∧ cell.seen ≠ ')' := by
  fun_induction argument? cells generalizing argument with
  | case1 cells found hclose =>
    obtain ⟨rfl, rfl⟩ := Prod.mk.inj (Option.some.inj h)
    obtain ⟨between, hbetween⟩ := suffix_of_closeArgument? hclose
    exact ⟨⟨between, hbetween.symm⟩, by simp⟩
  | case2 => simp at h
  | case3 => simp at h
  | case4 cell rest hline hclose ih =>
    obtain ⟨⟨inner, behind⟩, hinner, heq⟩ := Option.map_eq_some_iff.1 h
    obtain ⟨rfl, rfl⟩ := Prod.mk.inj heq
    obtain ⟨⟨between, rfl⟩, hcells⟩ := ih hinner
    refine ⟨⟨between, rfl⟩, List.forall_mem_cons.2 ⟨⟨hline, fun hend => ?_⟩, hcells⟩⟩
    rw [closeArgument?_cons_of_seen hend] at hclose
    simp at hclose

theorem CallKind.callee_ne_nil (kind : CallKind) : kind.callee ≠ [] := by
  cases kind <;> decide

theorem CallKind.not_isQuote_of_mem_callee (kind : CallKind) :
    ∀ c ∈ kind.callee, isQuote c = false := by
  have hall : kind.callee.all (fun c => !isQuote c) = true := by cases kind <;> decide
  simpa using List.all_eq_true.1 hall

/-! ## Similar views -/

/-- Two views show the same, but for what stands between some quotes. -/
inductive Similar : List Cell → List Cell → Prop
  | nil : Similar [] []
  | cons {cell cell' : Cell} {rest rest' : List Cell} (hseen : cell.seen = cell'.seen)
      (tail : Similar rest rest') : Similar (cell :: rest) (cell' :: rest')
  | quoted {opening opening' closing closing' : Cell} {run run' rest rest' : List Cell}
      (hseen : opening.seen = opening'.seen) (hopening : isQuote opening.seen = true)
      (hclosing : isQuote closing.seen = true) (hclosing' : isQuote closing'.seen = true)
      (hrun : ∀ cell ∈ run, IsInner cell.seen) (hrun' : ∀ cell ∈ run', IsInner cell.seen)
      (tail : Similar (closing :: rest) (closing' :: rest')) :
      Similar (opening :: (run ++ closing :: rest)) (opening' :: (run' ++ closing' :: rest'))

theorem map_seen_of_map_shown (h : cells.map Cell.shown = other.map Cell.shown) :
    cells.map Cell.seen = other.map Cell.seen := by
  have hmap := congrArg (List.map Prod.fst) h
  rwa [List.map_map, List.map_map] at hmap

namespace Similar

/-- Being similar does not depend on the order of the views. -/
theorem symm (h : Similar cells other) : Similar other cells := by
  induction h with
  | nil => exact .nil
  | cons hseen _ ih => exact .cons hseen.symm ih
  | quoted hseen hopening hclosing hclosing' hrun hrun' _ ih =>
    exact .quoted hseen.symm (hseen ▸ hopening) hclosing' hclosing hrun' hrun ih

theorem append (h : Similar cells other) (h' : Similar after after') :
    Similar (cells ++ after) (other ++ after') := by
  induction h with
  | nil => exact h'
  | cons hseen _ ih => exact .cons hseen ih
  | quoted hseen hopening hclosing hclosing' hrun hrun' _ ih =>
    have hquoted := Similar.quoted hseen hopening hclosing hclosing' hrun hrun' ih
    simpa using hquoted

theorem of_map_seen (h : cells.map Cell.seen = other.map Cell.seen) : Similar cells other := by
  induction cells generalizing other with
  | nil =>
    rw [List.map_eq_nil_iff.1 h.symm]
    exact .nil
  | cons cell rest ih =>
    obtain ⟨cell', rest', rfl, hseen, hrest⟩ := List.map_eq_cons_iff.1 h.symm
    exact .cons hseen.symm (ih hrest.symm)

theorem of_map_shown (h : cells.map Cell.shown = other.map Cell.shown) : Similar cells other :=
  .of_map_seen (map_seen_of_map_shown h)

end Similar

/-- What is left of two views is similar, and the same is seen in what stands in front. -/
def Alike (cells other after after' : List Cell) : Prop :=
  ∃ front front', cells = front ++ after ∧ other = front' ++ after' ∧
    front.map Cell.seen = front'.map Cell.seen ∧ Similar after after'

namespace Alike

theorem refl (h : Similar cells other) : Alike cells other cells other :=
  ⟨[], [], rfl, rfl, rfl, h⟩

theorem similar (h : Alike cells other after after') : Similar after after' := by
  obtain ⟨_, _, -, -, -, h⟩ := h
  exact h

/-- Recognisers one after the other. -/
theorem trans {rest rest' : List Cell} (h : Alike cells other after after')
    (h' : Alike after after' rest rest') : Alike cells other rest rest' := by
  obtain ⟨front, front', rfl, rfl, hfront, -⟩ := h
  obtain ⟨more, more', rfl, rfl, hmore, hrest⟩ := h'
  exact ⟨front ++ more, front' ++ more', by simp, by simp,
    by rw [List.map_append, List.map_append, hfront, hmore], hrest⟩

theorem cons {cell cell' : Cell} (hseen : cell.seen = cell'.seen)
    (h : Alike cells other after after') : Alike (cell :: cells) (cell' :: other) after after' := by
  obtain ⟨front, front', rfl, rfl, hfront, hrest⟩ := h
  exact ⟨cell :: front, cell' :: front', rfl, rfl,
    by rw [List.map_cons, List.map_cons, hseen, hfront], hrest⟩

/-- Behind as many cells of the second view, the same is left of it. -/
theorem eq_of_append (h : Alike cells other after after') {front front' rest' : List Cell}
    (hcells : cells = front ++ after) (hother : other = front' ++ rest')
    (hfront : front.map Cell.seen = front'.map Cell.seen) : after' = rest' := by
  obtain ⟨passed, passed', hpassed, hpassed', hseen, -⟩ := h
  obtain rfl : front = passed := List.append_cancel_right (hcells.symm.trans hpassed)
  have hlength : front'.length = passed'.length := by
    have hmap := congrArg List.length (hfront.symm.trans hseen)
    rwa [List.length_map, List.length_map] at hmap
  exact (List.append_inj (hother.symm.trans hpassed') hlength).2.symm

end Alike

/-! ## Recognising in similar views -/

theorem dropBlanks_cons (cell : Cell) (rest : List Cell) : dropBlanks (cell :: rest) =
    if Unicode.isBlank cell.seen then dropBlanks rest else cell :: rest :=
  List.dropWhile_cons

theorem dropBlanks_of_not_isBlank {cell : Cell} (h : Unicode.isBlank cell.seen = false)
    (rest : List Cell) : dropBlanks (cell :: rest) = cell :: rest := by
  rw [dropBlanks_cons, h, if_neg Bool.false_ne_true]

theorem dropBlanks_append {gap : List Cell} (h : ∀ cell ∈ gap, Unicode.isBlank cell.seen = true)
    (rest : List Cell) : dropBlanks (gap ++ rest) = dropBlanks rest :=
  List.dropWhile_append_of_pos h

theorem dropBlanks_cons_of_isQuote {cell : Cell} (h : isQuote cell.seen = true)
    (rest : List Cell) : dropBlanks (cell :: rest) = cell :: rest := by
  have hblank : Unicode.isBlank cell.seen = false := by
    rcases isQuote_iff.1 h with hc | hc <;> rw [hc] <;> decide
  rw [dropBlanks_cons, hblank, if_neg Bool.false_ne_true]

namespace Similar

/-- A pattern without quotes is passed over in a similar view as well. -/
theorem exists_dropSeen? {pattern : Text} (h : Similar cells other)
    (hpattern : ∀ c ∈ pattern, isQuote c = false) (hdrop : dropSeen? pattern cells = some after) :
    ∃ after', dropSeen? pattern other = some after' ∧ Alike cells other after after' := by
  induction pattern generalizing cells other with
  | nil =>
    obtain rfl := Option.some.inj hdrop
    exact ⟨other, rfl, .refl h⟩
  | cons c pattern ih =>
    obtain ⟨hc, hpattern⟩ := List.forall_mem_cons.1 hpattern
    cases h with
    | nil => simp [dropSeen?] at hdrop
    | cons hseen tail =>
      rw [dropSeen?] at hdrop ⊢
      split at hdrop
      · rename_i hfirst
        obtain ⟨after', hafter', halike⟩ := ih tail hpattern hdrop
        exact ⟨after', by rw [if_pos (hseen ▸ hfirst), hafter'], halike.cons hseen⟩
      · simp at hdrop
    -- a quoted piece starts with a quote, which the pattern does not have
    | quoted _ hopening =>
      rw [dropSeen?, if_neg (ne_of_isQuote hopening hc)] at hdrop
      simp at hdrop

theorem dropSeen?_eq_none {pattern : Text} (h : Similar cells other)
    (hpattern : ∀ c ∈ pattern, isQuote c = false) (hdrop : dropSeen? pattern cells = none) :
    dropSeen? pattern other = none := by
  by_contra hsome
  obtain ⟨after', hafter'⟩ := Option.ne_none_iff_exists'.1 hsome
  obtain ⟨after, hafter, -⟩ := h.symm.exists_dropSeen? hpattern hafter'
  rw [hdrop] at hafter
  simp at hafter

/-- Blanks in front are the same in both views: a quote is none. -/
theorem dropBlanks (h : Similar cells other) :
    Alike cells other (dropBlanks cells) (Script.dropBlanks other) := by
  induction h with
  | nil => exact .refl .nil
  | cons hseen tail ih =>
    rw [dropBlanks_cons, dropBlanks_cons, ← hseen]
    split
    · exact ih.cons hseen
    · exact .refl (.cons hseen tail)
  | quoted hseen hopening hclosing hclosing' hrun hrun' tail =>
    rw [dropBlanks_cons_of_isQuote hopening, dropBlanks_cons_of_isQuote (hseen ▸ hopening)]
    exact .refl (.quoted hseen hopening hclosing hclosing' hrun hrun' tail)

theorem dropOptional {c : Char} (h : Similar cells other) (hc : isQuote c = false) :
    Alike cells other (dropOptional c cells) (Script.dropOptional c other) := by
  have hpattern : ∀ d ∈ [c], isQuote d = false := by simpa using hc
  rw [Script.dropOptional, Script.dropOptional]
  rcases hdrop : dropSeen? [c] cells with _ | after
  · rw [h.dropSeen?_eq_none hpattern hdrop]
    exact .refl h
  · obtain ⟨after', hafter', halike⟩ := h.exists_dropSeen? hpattern hdrop
    rw [hafter']
    exact halike

theorem exists_openParenthesis? (h : Similar cells other)
    (hopen : openParenthesis? cells = some after) :
    ∃ after', openParenthesis? other = some after' ∧ Alike cells other after after' := by
  have hblanks := h.dropBlanks
  obtain ⟨after', hafter', halike⟩ := hblanks.similar.exists_dropSeen? (by simp [isQuote]) hopen
  exact ⟨after', hafter', hblanks.trans halike⟩

theorem exists_closeArgument? (h : Similar cells other)
    (hclose : closeArgument? cells = some after) :
    ∃ after', closeArgument? other = some after' ∧ Alike cells other after after' := by
  have hbracket := h.dropOptional (c := ']') rfl
  have hblanks := hbracket.similar.dropBlanks
  obtain ⟨after', hafter', halike⟩ := hblanks.similar.exists_dropSeen? (by simp [isQuote]) hclose
  exact ⟨after', hafter', hbracket.trans (hblanks.trans halike)⟩

theorem closeArgument?_eq_none (h : Similar cells other) (hclose : closeArgument? cells = none) :
    closeArgument? other = none := by
  by_contra hsome
  obtain ⟨after', hafter'⟩ := Option.ne_none_iff_exists'.1 hsome
  obtain ⟨after, hafter, -⟩ := h.symm.exists_closeArgument? hafter'
  rw [hclose] at hafter
  simp at hafter

end Similar

/-! ## Arguments -/

section Argument

variable {closing : Cell} {run rest : List Cell}

/-- An argument does not end between two quotes. -/
theorem closeArgument?_of_isInner (hrun : ∀ cell ∈ run, IsInner cell.seen)
    (hclosing : isQuote closing.seen = true) (rest : List Cell) :
    closeArgument? (run ++ closing :: rest) = none := by
  have hbracket : closing.seen ≠ ']' := ne_of_isQuote hclosing rfl
  have hend : closing.seen ≠ ')' := ne_of_isQuote hclosing rfl
  -- a bracket and blanks at the start leave such a piece, which does not start with a parenthesis
  obtain ⟨run, hrun, hopened⟩ : ∃ run', (∀ cell ∈ run', IsInner cell.seen) ∧
      dropOptional ']' (run ++ closing :: rest) = run' ++ closing :: rest := by
    rcases run with _ | ⟨cell, run⟩
    · exact ⟨[], by simp, by simp [dropOptional, dropSeen?, hbracket]⟩
    · by_cases hcell : cell.seen = ']'
      · exact ⟨run, (List.forall_mem_cons.1 hrun).2, by simp [dropOptional, dropSeen?, hcell]⟩
      · exact ⟨cell :: run, hrun, by simp [dropOptional, dropSeen?, hcell]⟩
  obtain ⟨run, hrun, hblanks⟩ : ∃ run', (∀ cell ∈ run', IsInner cell.seen) ∧
      dropBlanks (run ++ closing :: rest) = run' ++ closing :: rest := by
    clear hopened
    induction run with
    | nil => exact ⟨[], hrun, dropBlanks_cons_of_isQuote hclosing rest⟩
    | cons cell run ih =>
      rw [List.cons_append, dropBlanks_cons]
      split
      · exact ih (List.forall_mem_cons.1 hrun).2
      · exact ⟨cell :: run, hrun, rfl⟩
  rw [closeArgument?, hopened, hblanks]
  rcases run with _ | ⟨cell, run⟩
  · simp [dropSeen?, hend]
  · simp [dropSeen?, (List.forall_mem_cons.1 hrun).1.2.2]

theorem argument?_cons {cell : Cell} (hclose : closeArgument? (cell :: rest) = none)
    (hline : cell.seen ≠ '\n') : argument? (cell :: rest) =
      (argument? rest).map fun (argument, after) => (cell :: argument, after) := by
  rw [argument?, hclose]
  simp [hline]

theorem argument?_of_isInner (hrun : ∀ cell ∈ run, IsInner cell.seen)
    (hclosing : isQuote closing.seen = true) : argument? (run ++ closing :: rest) =
      (argument? (closing :: rest)).map fun (argument, after) => (run ++ argument, after) := by
  induction run with
  | nil => simp
  | cons cell run ih =>
    have hclose := closeArgument?_of_isInner hrun hclosing rest
    rw [List.cons_append] at hclose ⊢
    obtain ⟨hcell, hrun⟩ := List.forall_mem_cons.1 hrun
    rw [argument?_cons hclose hcell.2.1, ih hrun, Option.map_map]
    rfl

/-- An argument goes on through a quoted piece in it. -/
theorem argument?_quoted {opening : Cell} (hopening : isQuote opening.seen = true)
    (hrun : ∀ cell ∈ run, IsInner cell.seen) (hclosing : isQuote closing.seen = true) :
    argument? (opening :: (run ++ closing :: rest)) =
      (argument? (closing :: rest)).map fun (argument, after) =>
        (opening :: (run ++ argument), after) := by
  have hclose : closeArgument? (opening :: (run ++ closing :: rest)) = none :=
    closeArgument?_of_isInner (List.forall_mem_nil _) hopening _
  rw [argument?_cons hclose (ne_of_isQuote hopening rfl), argument?_of_isInner hrun hclosing,
    Option.map_map]
  rfl

end Argument

theorem argument?_eq_some_nil_iff : argument? cells = some ([], after) ↔
    closeArgument? cells = some after := by
  fun_cases argument? cells <;> simp_all

theorem argument?_eq_some_cons_iff {cell : Cell} {rest argument : List Cell} :
    argument? (cell :: rest) = some (cell :: argument, after) ↔
      closeArgument? (cell :: rest) = none ∧ cell.seen ≠ '\n' ∧
        argument? rest = some (argument, after) := by
  rcases hclose : closeArgument? (cell :: rest) with _ | found
  · by_cases hline : cell.seen = '\n'
    · rw [argument?, hclose]
      simp [hline]
    · rw [argument?_cons hclose hline]
      simp [hline]
  · rw [argument?_eq_some_nil_iff.2 hclose]
    simp

namespace Similar

/-- Where an argument starts, one starts in a similar view. -/
theorem isSome_argument? (h : Similar cells other) (hsome : (argument? cells).isSome = true) :
    (argument? other).isSome = true := by
  -- On the similar views. A quoted piece is passed over as a whole, in the one view and in the
  -- other.
  induction h with
  | nil => exact hsome
  | @cons cell cell' rest rest' hseen tail ih =>
    have hwhole := Similar.cons hseen tail
    rcases hclose : closeArgument? (cell :: rest) with _ | after
    · by_cases hline : cell.seen = '\n'
      · rw [argument?, hclose] at hsome
        simp [hline] at hsome
      · rw [argument?_cons hclose hline, Option.isSome_map] at hsome
        rw [argument?_cons (hwhole.closeArgument?_eq_none hclose) (hseen ▸ hline),
          Option.isSome_map]
        exact ih hsome
    · obtain ⟨after', hafter', -⟩ := hwhole.exists_closeArgument? hclose
      rw [argument?_eq_some_nil_iff.2 hafter']
      rfl
  | quoted hseen hopening hclosing hclosing' hrun hrun' _ ih =>
    rw [argument?_quoted hopening hrun hclosing, Option.isSome_map] at hsome
    rw [argument?_quoted (hseen ▸ hopening) hrun' hclosing', Option.isSome_map]
    exact ih hsome

/-- An argument is found as a similar one, if what stands behind it is similar as well. -/
theorem exists_argument? {argument argument' : List Cell} (h : Similar argument argument')
    (hrest : Similar cells other) (harg : argument? (argument ++ cells) = some (argument, after)) :
    ∃ after', argument? (argument' ++ other) = some (argument', after') ∧
      Alike cells other after after' := by
  -- On the similar arguments: the first view says where the argument ends, and nowhere before that
  -- does the second one end.
  induction h with
  | nil =>
    obtain ⟨after', hafter', halike⟩ :=
      hrest.exists_closeArgument? (argument?_eq_some_nil_iff.1 harg)
    exact ⟨after', argument?_eq_some_nil_iff.2 hafter', halike⟩
  | cons hseen tail ih =>
    obtain ⟨hclose, hline, hinner⟩ := argument?_eq_some_cons_iff.1 harg
    obtain ⟨after', hafter', halike⟩ := ih hinner
    have hclose' := (Similar.cons hseen (tail.append hrest)).closeArgument?_eq_none hclose
    exact ⟨after', argument?_eq_some_cons_iff.2 ⟨hclose', hseen ▸ hline, hafter'⟩, halike⟩
  | @quoted opening opening' closing closing' run run' rest rest' hseen hopening hclosing hclosing'
      hrun hrun' _ ih =>
    have hregroup : ∀ first last : Cell, ∀ run rest cells : List Cell,
        first :: (run ++ last :: rest) ++ cells = first :: (run ++ last :: (rest ++ cells)) := by
      simp
    rw [hregroup, argument?_quoted hopening hrun hclosing, Option.map_eq_some_iff] at harg
    obtain ⟨⟨inner, behind⟩, hinner, heq⟩ := harg
    obtain ⟨htail, rfl⟩ := Prod.mk.inj heq
    obtain rfl : inner = closing :: rest :=
      List.append_cancel_left (List.cons.inj htail).2
    obtain ⟨after', hafter', halike⟩ := ih hinner
    rw [List.cons_append] at hafter'
    refine ⟨after', ?_, halike⟩
    rw [hregroup, argument?_quoted (hseen ▸ hopening) hrun' hclosing', hafter', Option.map_some]

end Similar

/-! ## Calls -/

/-- Where the argument of a call of one kind starts, if the call starts here. -/
def argumentStart? (kind : CallKind) (cells : List Cell) : Option (List Cell) := do
  let opened ← openParenthesis? (← dropSeen? kind.callee cells)
  return dropOptional '[' (dropBlanks opened)

theorem callOfKindAt?_eq (cells : List Cell) (kind : CallKind) :
    callOfKindAt? cells kind = (argumentStart? kind cells).bind fun start =>
      (argument? start).map fun (argument, after) => (⟨kind, argument⟩, after) := by
  unfold callOfKindAt? argumentStart?
  rcases dropSeen? kind.callee cells with _ | named
  · rfl
  · rcases hopen : openParenthesis? named with _ | opened
    · simp [hopen]
    · rcases harg : argument? (dropOptional '[' (dropBlanks opened)) with _ | ⟨argument, after⟩ <;>
        simp [hopen, harg]

/-- A call starts with its callee, which is not empty, and its argument comes behind. -/
theorem exists_of_argumentStart? {kind : CallKind} {start : List Cell}
    (h : argumentStart? kind cells = some start) :
    ∃ front, front ≠ [] ∧ cells = front ++ start := by
  obtain ⟨named, hnamed, h⟩ := Option.bind_eq_some_iff.1 h
  obtain ⟨opened, hopened, h⟩ := Option.bind_eq_some_iff.1 h
  obtain rfl := Option.some.inj h
  -- the callee, a parenthesis and perhaps a bracket stand in front of the argument
  obtain ⟨callee, rfl, hcallee⟩ := exists_of_dropSeen? hnamed
  obtain ⟨front, hfront⟩ := (dropOptional_suffix '[' _).trans
    ((dropBlanks_suffix opened).trans (suffix_of_openParenthesis? hopened))
  refine ⟨callee ++ front, fun hnil => kind.callee_ne_nil ?_, by rw [← hfront, List.append_assoc]⟩
  rw [← hcallee, (List.append_eq_nil_iff.1 hnil).1, List.map_nil]

theorem exists_of_callOfKindAt? {kind : CallKind} {call : Call}
    (h : callOfKindAt? cells kind = some (call, after)) :
    call.kind = kind ∧ ∃ start, argumentStart? kind cells = some start ∧
      argument? start = some (call.argument, after) := by
  rw [callOfKindAt?_eq] at h
  obtain ⟨start, hstart, h⟩ := Option.bind_eq_some_iff.1 h
  obtain ⟨⟨argument, behind⟩, hargument, hcall⟩ := Option.map_eq_some_iff.1 h
  obtain ⟨rfl, rfl⟩ := Prod.mk.inj hcall
  exact ⟨rfl, start, hstart, hargument⟩

/-- A call that is found has an argument, behind where an argument of its kind starts. -/
theorem exists_of_callAt? {call : Call} (h : callAt? cells = some (call, after)) :
    ∃ start, argumentStart? call.kind cells = some start ∧
      argument? start = some (call.argument, after) := by
  obtain ⟨kind, -, hkind⟩ := List.exists_of_findSome?_eq_some h
  obtain ⟨rfl, hstart⟩ := exists_of_callOfKindAt? hkind
  exact hstart

namespace Similar

theorem exists_argumentStart? {kind : CallKind} {start : List Cell} (h : Similar cells other)
    (hstart : argumentStart? kind cells = some start) :
    ∃ start', argumentStart? kind other = some start' ∧ Alike cells other start start' := by
  obtain ⟨named, hnamed, hstart⟩ := Option.bind_eq_some_iff.1 hstart
  obtain ⟨opened, hopened, hstart⟩ := Option.bind_eq_some_iff.1 hstart
  obtain rfl := Option.some.inj hstart
  obtain ⟨named', hnamed', hcallee⟩ := h.exists_dropSeen? kind.not_isQuote_of_mem_callee hnamed
  obtain ⟨opened', hopened', hparenthesis⟩ := hcallee.similar.exists_openParenthesis? hopened
  have hblanks := hparenthesis.similar.dropBlanks
  have hbracket := hblanks.similar.dropOptional (c := '[') rfl
  refine ⟨_, ?_, hcallee.trans (hparenthesis.trans (hblanks.trans hbracket))⟩
  simp [argumentStart?, hnamed', hopened']

theorem isSome_callOfKindAt? {kind : CallKind} (h : Similar cells other)
    (hsome : (callOfKindAt? cells kind).isSome = true) :
    (callOfKindAt? other kind).isSome = true := by
  rw [callOfKindAt?_eq] at hsome ⊢
  rcases hstart : argumentStart? kind cells with _ | start
  · rw [hstart] at hsome
    simp at hsome
  · obtain ⟨start', hstart', halike⟩ := h.exists_argumentStart? hstart
    rw [hstart, Option.bind_some, Option.isSome_map] at hsome
    rw [hstart', Option.bind_some, Option.isSome_map]
    exact halike.similar.isSome_argument? hsome

theorem callOfKindAt?_eq_none {kind : CallKind} (h : Similar cells other)
    (hnone : callOfKindAt? cells kind = none) : callOfKindAt? other kind = none := by
  by_contra hsome
  have hsome' := h.symm.isSome_callOfKindAt? (Option.isSome_iff_ne_none.2 hsome)
  rw [hnone] at hsome'
  simp at hsome'

theorem callAt?_eq_none (h : Similar cells other) (hnone : callAt? cells = none) :
    callAt? other = none := by
  rw [callAt?, List.findSome?_eq_none_iff] at hnone ⊢
  exact fun kind hkind => h.callOfKindAt?_eq_none (hnone kind hkind)

end Similar

/-- A call is found in another view that has a similar argument in its place, and similar cells
behind it. -/
theorem callAt?_of_similar {call : Call} {front front' argument' between between' : List Cell}
    (hcall : callAt? (front ++ (call.argument ++ (between ++ after))) = some (call, after))
    (hstart : argumentStart? call.kind (front ++ (call.argument ++ (between ++ after))) =
      some (call.argument ++ (between ++ after)))
    (hfront : front.map Cell.seen = front'.map Cell.seen)
    (hargument : Similar call.argument argument')
    (hbetween : between.map Cell.seen = between'.map Cell.seen) (hafter : Similar after after') :
    callAt? (front' ++ (argument' ++ (between' ++ after'))) =
      some (⟨call.kind, argument'⟩, after') := by
  have hrest := (Similar.of_map_seen hbetween).append hafter
  have hcells := (Similar.of_map_seen hfront).append (hargument.append hrest)
  -- the argument starts and ends behind as many cells
  obtain ⟨start', hstart', halike⟩ := hcells.exists_argumentStart? hstart
  obtain rfl := halike.eq_of_append rfl rfl hfront
  obtain ⟨start, hfound, harg⟩ := exists_of_callAt? hcall
  obtain rfl := Option.some.inj (hstart.symm.trans hfound)
  obtain ⟨end', hend', hends⟩ := hargument.exists_argument? hrest harg
  obtain rfl := hends.eq_of_append rfl rfl hbetween
  have hof : callOfKindAt? (front' ++ (argument' ++ (between' ++ end'))) call.kind =
      some (⟨call.kind, argument'⟩, end') := by
    rw [callOfKindAt?_eq, hstart', Option.bind_some, hend', Option.map_some]
  -- the kinds that are tried before it fail as they do in the first view
  obtain ⟨tried, kind, others, hkinds, hkind, hfail⟩ := List.findSome?_eq_some_iff.1 hcall
  obtain ⟨rfl, -⟩ := exists_of_callOfKindAt? hkind
  exact List.findSome?_eq_some_iff.2 ⟨tried, call.kind, others, hkinds, hof,
    fun kind hmem => hcells.callOfKindAt?_eq_none (hfail kind hmem)⟩

/-! ## The search for calls -/

/-- The rules of the search: a call can start where `free` holds, and the search then goes on. -/
inductive Searched : Bool → List Cell → List Call → Prop
  | done (free : Bool) : Searched free [] []
  | skipped {free : Bool} {cell : Cell} {rest : List Cell} {calls : List Call}
      (hnone : free = true → callAt? (cell :: rest) = none)
      (tail : Searched (isBoundary cell.seen) rest calls) : Searched free (cell :: rest) calls
  | found {cells after : List Cell} {call : Call} {calls : List Call}
      (hcall : callAt? cells = some (call, after)) (tail : Searched false after calls) :
      Searched true cells (call :: calls)

theorem exists_cons_of_callAt? {call : Call} (h : callAt? cells = some (call, after)) :
    ∃ first rest, cells = first :: rest ∧ after <:+ rest := by
  obtain ⟨start, hstart, harg⟩ := exists_of_callAt? h
  obtain ⟨front, hfront, hcells⟩ := exists_of_argumentStart? hstart
  obtain ⟨first, front, rfl⟩ := List.exists_cons_of_ne_nil hfront
  obtain ⟨⟨between, hargument⟩, -⟩ := exists_of_argument? harg
  refine ⟨first, front ++ start, hcells, ?_⟩
  rw [hargument]
  exact ((List.suffix_append _ _).trans (List.suffix_append _ _)).trans (List.suffix_append _ _)

theorem callsFrom_eq (skip : Nat) (cells : List Cell) :
    callsFrom skip false cells = callsFrom 0 false (cells.drop skip) := by
  induction cells generalizing skip with
  | nil => simp [callsFrom]
  | cons cell rest ih =>
    cases skip with
    | zero => rfl
    | succ skip => rw [callsFrom, ih, List.drop_succ_cons]

/-- Behind a call, the search goes on. -/
theorem callsFrom_of_callAt? {call : Call} (h : callAt? cells = some (call, after)) :
    callsFrom 0 true cells = call :: callsFrom 0 false after := by
  obtain ⟨first, rest, rfl, hsuffix⟩ := exists_cons_of_callAt? h
  rw [callsFrom, if_pos rfl, h]
  simp only
  rw [callsFrom_eq, ← List.suffix_iff_eq_drop.1 hsuffix]

theorem callsFrom_of_eq_none {free : Bool} {cell : Cell} {rest : List Cell}
    (h : free = true → callAt? (cell :: rest) = none) :
    callsFrom 0 free (cell :: rest) = callsFrom 0 (isBoundary cell.seen) rest := by
  have hnone : (if free then callAt? (cell :: rest) else none) = none := by
    split
    · rename_i hfree
      exact h hfree
    · rfl
  rw [callsFrom, hnone]

theorem Searched.callsFrom_eq {free : Bool} {calls : List Call} (h : Searched free cells calls) :
    callsFrom 0 free cells = calls := by
  induction h with
  | done => rfl
  | skipped hnone _ ih => rw [callsFrom_of_eq_none hnone, ih]
  | found hcall _ ih => rw [callsFrom_of_callAt? hcall, ih]

/-- The calls that the search finds are those that the rules give. -/
theorem searched_callsFrom (free : Bool) (cells : List Cell) :
    Searched free cells (callsFrom 0 free cells) := by
  -- On the length, since the search goes on behind the argument of a call.
  induction hlength : cells.length using Nat.strong_induction_on generalizing free cells with
  | _ length ih =>
    rcases cells with _ | ⟨cell, rest⟩
    · exact .done free
    rw [List.length_cons] at hlength
    by_cases hcall : free = true → callAt? (cell :: rest) = none
    · rw [callsFrom_of_eq_none hcall]
      exact .skipped hcall (ih _ (by omega) _ rest rfl)
    · obtain ⟨rfl, hsome⟩ := Classical.not_imp.1 hcall
      obtain ⟨⟨call, after⟩, hcall⟩ := Option.ne_none_iff_exists'.1 hsome
      obtain ⟨first, others, hcells, hsuffix⟩ := exists_cons_of_callAt? hcall
      obtain ⟨-, rfl⟩ := List.cons.inj hcells
      have hle := hsuffix.length_le
      rw [callsFrom_of_callAt? hcall]
      exact .found hcall (ih _ (by omega) _ after rfl)

end ModuleCompiler.Script
