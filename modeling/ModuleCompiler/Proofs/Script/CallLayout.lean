import ModuleCompiler.Proofs.Script.Scanning

/-!
# The layouts of a call

A call can be laid out in many ways: with one id or an array of them, each in quotes of either kind,
and with blanks between any two of its tokens, line breaks among them. Its argument is read up to
the bracket or the parenthesis at its end, and the ids in it are found in their places, unless a
line breaks inside the brackets of an array.

A `CallLayout` has the tokens of a call and the gaps between them, and from it both the text and
what the scan should find there, `CallLayout.ids`. The text is shown as it is written
(`CallLayout.verbatim_text`), so its cells are known and each recogniser can be run on them: the
callee and what is behind it (`argumentStart?_placed`, `callAt?_eq_callOfKindAt?`), then the
entries of an array one by one, once for where the argument ends (`argument?_append_entries`) and
once for the ids in it (`ids_entries`). `Argument.argument?_placed` and `Argument.ids_cells` are
what the scan of a layout needs.
-/

namespace ModuleCompiler.Script

open Unicode

/-! ## Layouts -/

/-- Blank text between two tokens. -/
structure Gap where
  text : Text
  blank : ∀ c ∈ text, isBlank c = true

/-- An id between two quotes of one kind. -/
structure QuotedId where
  quote : Char
  id : Text
  quote_isQuote : isQuote quote = true
  inner : ∀ c ∈ id, IsInner c
  escape_not_mem : '\\' ∉ id

/-- The id with its quotes. -/
def QuotedId.text (quoted : QuotedId) : Text :=
  quoted.quote :: quoted.id ++ [quoted.quote]

/-- What the scan should find of an id whose opening quote is at byte `offset`. -/
def QuotedId.span (kind : CallKind) (offset : Nat) (quoted : QuotedId) : IdSpan :=
  ⟨kind, offset + 1, offset + 1 + Text.byteLength quoted.id, quoted.id⟩

/-- An id in an array, with the gaps around it. -/
structure Entry where
  before : Gap
  quoted : QuotedId
  after : Gap

def Entry.text (entry : Entry) : Text :=
  entry.before.text ++ entry.quoted.text ++ entry.after.text

/-- The entries of an array, with commas between them. -/
def entriesText (entries : List Entry) : Text :=
  Text.joined [','] (entries.map Entry.text)

/-- What the scan should find of entries that start at byte `offset`. -/
def entrySpans (kind : CallKind) : Nat → List Entry → List IdSpan
  | _, [] => []
  | offset, entry :: rest =>
    entry.quoted.span kind (offset + Text.byteLength entry.before.text) ::
      entrySpans kind (offset + Text.byteLength entry.text + 1) rest

/-- The argument of a call: one id, or an array of some. -/
inductive Argument where
  | single (quoted : QuotedId)
  | array (first : Entry) (others : List Entry)

def Argument.text : Argument → Text
  | single quoted => quoted.text
  | array first others => '[' :: entriesText (first :: others) ++ [']']

/-- What the scan should find of an argument that starts at byte `offset`. -/
def Argument.spans (kind : CallKind) (offset : Nat) : Argument → List IdSpan
  | single quoted => [quoted.span kind offset]
  | array first others => entrySpans kind (offset + 1) (first :: others)

/-- A call, with the gaps between its tokens. -/
structure CallLayout where
  kind : CallKind
  afterCallee : Gap
  afterOpening : Gap
  argument : Argument
  beforeClosing : Gap

namespace CallLayout

/-- What stands before the argument. -/
def opening (layout : CallLayout) : Text :=
  layout.kind.callee ++ layout.afterCallee.text ++ '(' :: layout.afterOpening.text

def text (layout : CallLayout) : Text :=
  layout.opening ++ layout.argument.text ++ (layout.beforeClosing.text ++ [')'])

/-- The ids of the call, in order, with the bytes they take. -/
def ids (layout : CallLayout) : List IdSpan :=
  layout.argument.spans layout.kind (Text.byteLength layout.opening)

end CallLayout

/-! ## Characters -/

theorem ne_of_isBlank {c d : Char} (h : isBlank c = true) (hd : isBlank d = false) : c ≠ d := by
  rintro rfl
  rw [h] at hd
  exact Bool.noConfusion hd

theorem Gap.not_mem (gap : Gap) {c : Char} (hc : isBlank c = false) : c ∉ gap.text := fun hmem =>
  ne_of_isBlank (gap.blank c hmem) hc rfl

theorem isBlank_of_isQuote {c : Char} (h : isQuote c = true) : isBlank c = false := by
  rcases isQuote_iff.1 h with rfl | rfl <;> decide

theorem isQuote_of_isBlank {c : Char} (h : isBlank c = true) : isQuote c = false := by
  rw [Bool.eq_false_iff]
  intro hquote
  rw [isBlank_of_isQuote hquote] at h
  exact Bool.noConfusion h

theorem Gap.verbatim (gap : Gap) : Verbatim gap.text :=
  verbatim_of_plain fun c hmem =>
    ⟨isQuote_of_isBlank (gap.blank c hmem), ne_of_isBlank (gap.blank c hmem) (by decide)⟩

namespace QuotedId

variable (quoted : QuotedId)

theorem quote_not_mem {quote : Char} (hquote : isQuote quote = true) : quote ∉ quoted.id :=
  fun hmem => ne_of_isQuote hquote (quoted.inner quote hmem).1 rfl

theorem verbatim : Verbatim quoted.text :=
  verbatim_quoted quoted.quote_isQuote (quoted.quote_not_mem quoted.quote_isQuote)
    quoted.escape_not_mem fun hmem => (quoted.inner '\n' hmem).2.1 rfl

theorem line_not_mem : '\n' ∉ quoted.text := by
  have hquote := ne_of_isQuote quoted.quote_isQuote (d := '\n') rfl
  have hid : '\n' ∉ quoted.id := fun hmem => (quoted.inner '\n' hmem).2.1 rfl
  simp [text, hid, hquote.symm]

end QuotedId

theorem Entry.verbatim (entry : Entry) : Verbatim entry.text :=
  (entry.before.verbatim.append entry.quoted.verbatim).append entry.after.verbatim

theorem entriesText_cons_cons (entry next : Entry) (rest : List Entry) :
    entriesText (entry :: next :: rest) = entry.text ++ ',' :: entriesText (next :: rest) := by
  rw [entriesText, entriesText, List.map_cons, List.map_cons, Text.joined_cons_cons]
  simp

@[simp] theorem entriesText_singleton (entry : Entry) : entriesText [entry] = entry.text := by
  rw [entriesText, List.map_singleton, Text.joined_singleton]

theorem verbatim_entriesText (entries : List Entry) : Verbatim (entriesText entries) := by
  have hcomma : Verbatim [','] := verbatim_of_plain (List.all_iff_forall_prop.1 (by decide))
  refine verbatim_joined hcomma fun text hmem => ?_
  obtain ⟨entry, -, rfl⟩ := List.mem_map.1 hmem
  exact entry.verbatim

theorem Argument.verbatim (argument : Argument) : Verbatim argument.text := by
  cases argument with
  | single quoted => exact quoted.verbatim
  | array first others =>
    have hopening : Verbatim ['['] := verbatim_of_plain (List.all_iff_forall_prop.1 (by decide))
    have hclosing : Verbatim [']'] := verbatim_of_plain (List.all_iff_forall_prop.1 (by decide))
    exact (hopening.append (verbatim_entriesText _)).append hclosing

theorem CallLayout.verbatim_text (layout : CallLayout) : Verbatim layout.text := by
  have hcallee : Verbatim layout.kind.callee :=
    verbatim_of_plain (List.all_iff_forall_prop.1 (by cases layout.kind <;> decide))
  have hopening : Verbatim ['('] := verbatim_of_plain (List.all_iff_forall_prop.1 (by decide))
  have hclosing : Verbatim [')'] := verbatim_of_plain (List.all_iff_forall_prop.1 (by decide))
  have hhead : Verbatim layout.opening :=
    (hcallee.append layout.afterCallee.verbatim).append
      (hopening.append layout.afterOpening.verbatim)
  exact (hhead.append layout.argument.verbatim).append
    (layout.beforeClosing.verbatim.append hclosing)

/-! ## Cells of a text -/

/-- A quoted id, from its opening quote on. -/
theorem QuotedId.placed_text (quoted : QuotedId) (offset : Nat) :
    ∃ opening run closing, placed offset quoted.text = opening :: (run ++ [closing]) ∧
      isQuote opening.seen = true ∧ isQuote closing.seen = true ∧
      (∀ cell ∈ run, IsInner cell.seen) ∧
      ∀ kind, IdSpan.ofRun kind run closing = quoted.span kind offset := by
  have hquote := quoted.quote_isQuote
  refine ⟨⟨offset, quoted.quote, [quoted.quote]⟩, placed (offset + 1) quoted.id,
    ⟨offset + 1 + Text.byteLength quoted.id, quoted.quote, [quoted.quote]⟩, ?_, hquote, hquote,
    fun cell hmem => quoted.inner _ (seen_of_mem_placed hmem), fun kind => ?_⟩
  · rw [QuotedId.text, List.cons_append, placed_cons, placed_append, utf8Size_of_isQuote hquote]
    rfl
  · rcases hid : quoted.id with _ | ⟨c, rest⟩
    · simp [IdSpan.ofRun, QuotedId.span, hid, placed, asWritten, place]
    · rw [← hid]
      simp [IdSpan.ofRun, QuotedId.span, hid, placed_cons]

/-! ## Recognising the call -/

section Recognition

variable {rest : List Cell}

theorem isBlank_of_mem_placed (gap : Gap) (offset : Nat) :
    ∀ cell ∈ placed offset gap.text, isBlank cell.seen = true :=
  fun _ hmem => gap.blank _ (seen_of_mem_placed hmem)

/-- The argument starts behind the callee, the parenthesis and a bracket. -/
theorem argumentStart?_placed (kind : CallKind) (afterCallee afterOpening : Gap) (offset : Nat)
    (hrest : dropBlanks rest = rest) :
    argumentStart? kind
        (placed offset (kind.callee ++ afterCallee.text ++ '(' :: afterOpening.text) ++ rest) =
      some (dropOptional '[' rest) := by
  have hparenthesis : isBlank '(' = false := by decide
  rw [placed_append, placed_append, placed_cons, List.append_assoc, List.append_assoc,
    argumentStart?, dropSeen?_append (map_seen_placed _ _)]
  simp only [Option.bind_eq_bind, Option.bind_some, openParenthesis?]
  rw [dropBlanks_append (isBlank_of_mem_placed _ _), List.cons_append,
    dropBlanks_of_not_isBlank hparenthesis]
  simp only [dropSeen?, if_pos, Option.bind_some]
  rw [dropBlanks_append (isBlank_of_mem_placed _ _), hrest]
  rfl

theorem CallKind.eq_of_isPrefix {kind other : CallKind} (h : kind.callee <+: other.callee) :
    kind = other ∨ kind = .require ∧ other = .requireAsync := by
  revert h
  cases kind <;> cases other <;> decide

/-- The callee of one kind is not the one of another. -/
theorem argumentStart?_eq_none {kind other : CallKind} (hne : other ≠ kind) (gap : Gap)
    {cells : List Cell} {behind : Text}
    (h : cells.map Cell.seen = kind.callee ++ gap.text ++ '(' :: behind) :
    argumentStart? other cells = none := by
  by_contra hsome
  obtain ⟨start, hstart⟩ := Option.ne_none_iff_exists'.1 hsome
  obtain ⟨named, hnamed, hstart⟩ := Option.bind_eq_some_iff.1 hstart
  obtain ⟨opened, hopened, -⟩ := Option.bind_eq_some_iff.1 hstart
  obtain ⟨passed, rfl, hpassed⟩ := exists_of_dropSeen? hnamed
  rw [List.map_append, hpassed, List.append_assoc] at h
  -- only one callee starts another, and goes on with a dot there
  have hlonger : CallKind.requireAsync.callee = CallKind.require.callee ++ (".async" : Text) := rfl
  rcases List.append_eq_append_iff.1 h with ⟨more, hkind, hnamed⟩ | ⟨more, hother, hgap⟩
  · obtain ⟨rfl, rfl⟩ := (CallKind.eq_of_isPrefix ⟨more, hkind.symm⟩).resolve_left hne
    obtain rfl := List.append_cancel_left (hlonger.symm.trans hkind)
    rcases named with _ | ⟨cell, named⟩
    · simp at hnamed
    · have hdot : cell.seen = '.' := (List.cons.inj hnamed).1
      have hblank : isBlank cell.seen = false := by
        rw [hdot]
        decide
      rw [openParenthesis?, dropBlanks_of_not_isBlank hblank, dropSeen?, hdot] at hopened
      simp at hopened
  · obtain ⟨rfl, rfl⟩ := (CallKind.eq_of_isPrefix ⟨more, hother.symm⟩).resolve_left hne.symm
    obtain rfl := List.append_cancel_left (hlonger.symm.trans hother)
    rcases htext : gap.text with _ | ⟨c, inner⟩
    · rw [htext] at hgap
      simp at hgap
    · rw [htext] at hgap
      have hmem : '.' ∈ gap.text := by
        rw [htext, (List.cons.inj hgap).1]
        exact List.mem_cons_self
      exact gap.not_mem (by decide) hmem

/-- Of the kinds of calls, only the one whose callee starts the text can be found there. -/
theorem callAt?_eq_callOfKindAt? {kind : CallKind} (gap : Gap) {cells : List Cell} {behind : Text}
    (h : cells.map Cell.seen = kind.callee ++ gap.text ++ '(' :: behind) :
    callAt? cells = callOfKindAt? cells kind := by
  have hnone : ∀ other, other ≠ kind → callOfKindAt? cells other = none := fun other hne => by
    rw [callOfKindAt?_eq, argumentStart?_eq_none hne gap h, Option.bind_none]
  rw [callAt?]
  -- the kinds are tried in a fixed order, and all but one of them fail
  cases kind with
  | use =>
    rw [List.findSome?_cons]
    rcases callOfKindAt? cells .use with _ | found
    · simp [hnone]
    · rfl
  | requireAsync =>
    rw [List.findSome?_cons, hnone .use (by decide), List.findSome?_cons]
    rcases callOfKindAt? cells .requireAsync with _ | found
    · simp [hnone]
    · rfl
  | require =>
    rw [List.findSome?_cons, hnone .use (by decide), List.findSome?_cons,
      hnone .requireAsync (by decide), List.findSome?_cons]
    rcases callOfKindAt? cells .require with _ | found <;> rfl

end Recognition

/-! ## Reading the argument -/

section Reading

variable {gap rest : List Cell}

/-- Blanks end no argument, unless a parenthesis follows them. -/
theorem closeArgument?_append_gap (hgap : ∀ cell ∈ gap, isBlank cell.seen = true) (hne : gap ≠ [])
    (rest : List Cell) : closeArgument? (gap ++ rest) = dropSeen? [')'] (dropBlanks rest) := by
  obtain ⟨cell, gap, rfl⟩ := List.exists_cons_of_ne_nil hne
  have hbracket : cell.seen ≠ ']' := ne_of_isBlank (hgap cell List.mem_cons_self) (by decide)
  have hoptional : dropOptional ']' (cell :: gap ++ rest) = cell :: gap ++ rest := by
    simp [dropOptional, dropSeen?, hbracket]
  rw [closeArgument?, hoptional, dropBlanks_append hgap]

/-- An argument goes on behind blanks that no parenthesis follows, unless a line breaks there. -/
theorem argument?_append_gap (hgap : ∀ cell ∈ gap, isBlank cell.seen = true)
    (hrest : dropSeen? [')'] (dropBlanks rest) = none) :
    argument? (gap ++ rest) = if '\n' ∈ gap.map Cell.seen then none
      else (argument? rest).map fun (argument, after) => (gap ++ argument, after) := by
  induction gap with
  | nil => simp
  | cons cell gap ih =>
    have hclose : closeArgument? (cell :: (gap ++ rest)) = none :=
      (closeArgument?_append_gap hgap (List.cons_ne_nil cell gap) rest).trans hrest
    rw [List.cons_append]
    by_cases hline : cell.seen = '\n'
    · rw [argument?, hclose, List.map_cons, hline]
      simp
    · rw [argument?_cons hclose hline, ih (List.forall_mem_cons.1 hgap).2, List.map_cons]
      by_cases hmem : '\n' ∈ gap.map Cell.seen
      · rw [if_pos hmem, if_pos (List.mem_cons_of_mem _ hmem), Option.map_none]
      · rw [if_neg hmem, if_neg (by simp [hmem, Ne.symm hline]), Option.map_map]
        rfl

/-- An argument goes on behind an id. -/
theorem argument?_append_quoted (quoted : QuotedId) (offset : Nat) (rest : List Cell) :
    argument? (placed offset quoted.text ++ rest) =
      (argument? rest).map fun (argument, after) =>
        (placed offset quoted.text ++ argument, after) := by
  obtain ⟨opening, run, closing, htext, hopening, hclosing, hrun, -⟩ := quoted.placed_text offset
  have hclose : closeArgument? (closing :: rest) = none :=
    closeArgument?_of_isInner (List.forall_mem_nil _) hclosing rest
  rw [htext, List.cons_append, List.append_assoc, List.singleton_append,
    argument?_quoted hopening hrun hclosing, argument?_cons hclose (ne_of_isQuote hclosing rfl),
    Option.map_map]
  simp [Function.comp_def]

theorem dropSeen?_of_quoted (quoted : QuotedId) (offset : Nat) (rest : List Cell) :
    dropSeen? [')'] (dropBlanks (placed offset quoted.text ++ rest)) = none := by
  obtain ⟨opening, run, closing, htext, hopening, -⟩ := quoted.placed_text offset
  have hne : opening.seen ≠ ')' := ne_of_isQuote hopening rfl
  rw [htext, List.cons_append, dropBlanks_cons_of_isQuote hopening, dropSeen?, if_neg hne]

/-- An argument goes on behind an entry, unless a line breaks there. -/
theorem argument?_append_entry (entry : Entry) (offset : Nat)
    (hrest : dropSeen? [')'] (dropBlanks rest) = none) :
    argument? (placed offset entry.text ++ rest) = if '\n' ∈ entry.text then none
      else (argument? rest).map fun (argument, after) =>
        (placed offset entry.text ++ argument, after) := by
  have hline : '\n' ∈ entry.text ↔ '\n' ∈ entry.before.text ∨ '\n' ∈ entry.after.text := by
    simp [Entry.text, entry.quoted.line_not_mem]
  rw [Entry.text, placed_append, placed_append, List.append_assoc, List.append_assoc,
    argument?_append_gap (isBlank_of_mem_placed _ _) (dropSeen?_of_quoted _ _ _),
    argument?_append_quoted, argument?_append_gap (isBlank_of_mem_placed _ _) hrest,
    map_seen_placed, map_seen_placed, ← Entry.text]
  by_cases hbefore : '\n' ∈ entry.before.text
  · rw [if_pos hbefore, if_pos (hline.2 (.inl hbefore))]
  · by_cases hafter : '\n' ∈ entry.after.text
    · rw [if_neg hbefore, if_pos hafter, if_pos (hline.2 (.inr hafter))]
      rfl
    · rw [if_neg hbefore, if_neg hafter, if_neg (mt hline.1 (not_or_intro hbefore hafter)),
        Option.map_map, Option.map_map]
      simp [Function.comp_def]

/-- The argument goes on behind all entries of an array, unless a line breaks between them. -/
theorem argument?_append_entries (first : Entry) (others : List Entry) (offset : Nat)
    (hrest : dropSeen? [')'] (dropBlanks rest) = none) :
    argument? (placed offset (entriesText (first :: others)) ++ rest) =
      if '\n' ∈ entriesText (first :: others) then none
      else (argument? rest).map fun (argument, after) =>
        (placed offset (entriesText (first :: others)) ++ argument, after) := by
  -- On the entries: each is passed with the comma behind it, and the last one is where the bracket
  -- comes.
  induction others generalizing first offset with
  | nil => simpa using argument?_append_entry first offset hrest
  | cons next others ih =>
    rw [entriesText_cons_cons, placed_append, placed_cons, List.append_assoc, List.cons_append]
    generalize hoffset : offset + Text.byteLength first.text = behind
    have hblank : isBlank ',' = false := by decide
    have hcomma : ∀ cells, dropBlanks (⟨behind, ',', [',']⟩ :: cells) =
        ⟨behind, ',', [',']⟩ :: cells := dropBlanks_of_not_isBlank hblank
    have hclose : ∀ cells, closeArgument? (⟨behind, ',', [',']⟩ :: cells) = none := by
      intro cells
      rw [closeArgument?, dropOptional]
      simp [dropSeen?, hcomma]
    have hline : ',' ≠ '\n' := by decide
    rw [argument?_append_entry first offset (by rw [hcomma]; simp [dropSeen?]),
      argument?_cons (hclose _) hline, ih]
    by_cases hfirst : '\n' ∈ first.text
    · simp [hfirst]
    · by_cases hothers : '\n' ∈ entriesText (next :: others)
      · simp [hothers]
      · simp [hfirst, hothers, Function.comp_def]

end Reading

/-! ## The ids of the argument -/

section Ids

variable {front rest : List Cell}

theorem quotedRuns_append (h : ∀ cell ∈ front, isQuote cell.seen = false) (rest : List Cell) :
    quotedRuns none (front ++ rest) = quotedRuns none rest := by
  induction front with
  | nil => rfl
  | cons cell front ih =>
    obtain ⟨hcell, hfront⟩ := List.forall_mem_cons.1 h
    rw [List.cons_append, quotedRuns, hcell, if_neg Bool.false_ne_true, ih hfront]

/-- A piece that has begun ends at the next quote. -/
theorem quotedRuns_some_append {run : List Cell} {closing : Cell}
    (hrun : ∀ cell ∈ run, isQuote cell.seen = false) (hclosing : isQuote closing.seen = true)
    (begun rest : List Cell) : quotedRuns (some begun) (run ++ closing :: rest) =
      (begun ++ run, closing) :: quotedRuns none rest := by
  induction run generalizing begun with
  | nil => rw [List.nil_append, quotedRuns, if_pos hclosing, List.append_nil]
  | cons cell run ih =>
    obtain ⟨hcell, hrun⟩ := List.forall_mem_cons.1 hrun
    rw [List.cons_append, quotedRuns, hcell, if_neg Bool.false_ne_true, ih hrun, List.append_assoc,
      List.singleton_append]

/-- The ids among the cells of an argument. -/
theorem ids_append_quoted (kind : CallKind) (quoted : QuotedId) (offset : Nat) (rest : List Cell) :
    (⟨kind, placed offset quoted.text ++ rest⟩ : Call).ids =
      quoted.span kind offset :: (⟨kind, rest⟩ : Call).ids := by
  obtain ⟨opening, run, closing, htext, hopening, hclosing, hrun, hspan⟩ :=
    quoted.placed_text offset
  have hquotes : ∀ cell ∈ run, isQuote cell.seen = false := fun cell hmem => (hrun cell hmem).1
  rw [Call.ids, htext, List.cons_append, List.append_assoc, List.singleton_append, quotedRuns,
    if_pos hopening, quotedRuns_some_append hquotes hclosing, List.nil_append, List.map_cons]
  show IdSpan.ofRun kind run closing :: _ = _
  rw [hspan]
  rfl

theorem ids_append_of_not_isQuote (kind : CallKind) (h : ∀ cell ∈ front, isQuote cell.seen = false)
    (rest : List Cell) : (⟨kind, front ++ rest⟩ : Call).ids = (⟨kind, rest⟩ : Call).ids := by
  rw [Call.ids, quotedRuns_append h]
  rfl

theorem not_isQuote_of_mem_placed (gap : Gap) (offset : Nat) :
    ∀ cell ∈ placed offset gap.text, isQuote cell.seen = false :=
  fun cell hmem => isQuote_of_isBlank (isBlank_of_mem_placed gap offset cell hmem)

theorem ids_append_entry (kind : CallKind) (entry : Entry) (offset : Nat) (rest : List Cell) :
    (⟨kind, placed offset entry.text ++ rest⟩ : Call).ids =
      entry.quoted.span kind (offset + Text.byteLength entry.before.text) ::
        (⟨kind, rest⟩ : Call).ids := by
  rw [Entry.text, placed_append, placed_append, List.append_assoc, List.append_assoc,
    ids_append_of_not_isQuote kind (not_isQuote_of_mem_placed _ _), ids_append_quoted,
    ids_append_of_not_isQuote kind (not_isQuote_of_mem_placed _ _)]

/-- The ids of the entries of an array are those that the scan should find. -/
theorem ids_entries (kind : CallKind) (first : Entry) (others : List Entry) (offset : Nat) :
    (⟨kind, placed offset (entriesText (first :: others))⟩ : Call).ids =
      entrySpans kind offset (first :: others) := by
  induction others generalizing first offset with
  | nil =>
    have hentry := ids_append_entry kind first offset []
    rw [List.append_nil] at hentry
    rw [entriesText_singleton, hentry]
    rfl
  | cons next others ih =>
    have hcomma : ∀ cell ∈ [(⟨offset + Text.byteLength first.text, ',', [',']⟩ : Cell)],
        isQuote cell.seen = false := by simp [isQuote]
    have hbehind := ids_append_of_not_isQuote kind hcomma
      (placed (offset + Text.byteLength first.text + 1) (entriesText (next :: others)))
    rw [ih] at hbehind
    rw [entriesText_cons_cons, placed_append, placed_cons, ids_append_entry, entrySpans, ← hbehind]
    rfl

end Ids

/-! ## The call of a layout -/

/-- What closes a call is a parenthesis, with blanks before it. -/
theorem closeArgument?_closing (gap : Gap) (offset : Nat) :
    closeArgument? (placed offset (gap.text ++ [')'])) = some [] ∧
      dropSeen? [')'] (dropBlanks (placed offset (gap.text ++ [')']))) = some [] := by
  have hparenthesis : isBlank ')' = false := by decide
  rw [placed_append]
  constructor
  · rcases eq_or_ne (placed offset gap.text) [] with hnil | hne
    · rw [hnil]
      exact closeArgument?_cons_of_seen rfl []
    · rw [closeArgument?_append_gap (isBlank_of_mem_placed gap offset) hne, placed_cons,
        dropBlanks_of_not_isBlank hparenthesis]
      rfl
  · rw [dropBlanks_append (isBlank_of_mem_placed gap offset), placed_cons,
      dropBlanks_of_not_isBlank hparenthesis]
    rfl

namespace Argument

/-- The cells of an argument at byte `offset`, without the brackets of an array. -/
def cells (offset : Nat) : Argument → List Cell
  | single quoted => placed offset quoted.text
  | array first others => placed (offset + 1) (entriesText (first :: others))

theorem ids_cells (kind : CallKind) (offset : Nat) (argument : Argument) :
    (⟨kind, argument.cells offset⟩ : Call).ids = argument.spans kind offset := by
  cases argument with
  | single quoted =>
    have hquoted := ids_append_quoted kind quoted offset []
    rw [List.append_nil] at hquoted
    exact hquoted
  | array first others => exact ids_entries kind first others (offset + 1)

/-- No blanks stand in front of an argument. -/
theorem dropBlanks_placed (argument : Argument) (offset : Nat) (rest : List Cell) :
    dropBlanks (placed offset argument.text ++ rest) = placed offset argument.text ++ rest := by
  cases argument with
  | single quoted =>
    obtain ⟨opening, run, closing, htext, hopening, -⟩ := quoted.placed_text offset
    rw [text, htext, List.cons_append, dropBlanks_cons_of_isQuote hopening]
  | array first others =>
    have hbracket : isBlank '[' = false := by decide
    exact dropBlanks_of_not_isBlank hbracket _

/-- The argument is read behind its bracket, unless a line breaks in it. -/
theorem argument?_placed (argument : Argument) (offset : Nat) {closing : List Cell}
    (hclosed : closeArgument? closing = some [])
    (hends : dropSeen? [')'] (dropBlanks closing) = some []) :
    argument? (dropOptional '[' (placed offset argument.text ++ closing)) =
      if '\n' ∈ argument.text then none else some (argument.cells offset, []) := by
  -- One id has no bracket to drop and no line break. An array is read between its brackets, and
  -- what closes the call stands behind the second one.
  cases argument with
  | single quoted =>
    obtain ⟨opening, run, last, htext, hopening, -⟩ := quoted.placed_text offset
    have hbracket : opening.seen ≠ '[' := ne_of_isQuote hopening rfl
    have hoptional : dropOptional '[' (placed offset quoted.text ++ closing) =
        placed offset quoted.text ++ closing := by
      rw [htext]
      simp [dropOptional, dropSeen?, hbracket]
    have hline : '\n' ∉ (single quoted).text := quoted.line_not_mem
    rw [if_neg hline, text, hoptional, argument?_append_quoted, argument?_eq_some_nil_iff.2 hclosed,
      Option.map_some]
    simp only [List.append_nil]
    rfl
  | array first others =>
    have hoptional : dropOptional '[' (placed offset (array first others).text ++ closing) =
        placed (offset + 1) (entriesText (first :: others)) ++
          (⟨offset + 1 + Text.byteLength (entriesText (first :: others)), ']', [']']⟩ ::
            closing) := by
      rw [text, List.cons_append, placed_cons, placed_append, List.cons_append, List.append_assoc]
      rfl
    have hline : '\n' ∈ (array first others).text ↔ '\n' ∈ entriesText (first :: others) := by
      simp [text]
    have hbracket : isBlank ']' = false := by decide
    rw [hoptional]
    generalize offset + 1 + Text.byteLength (entriesText (first :: others)) = behind
    have hclose : closeArgument? (⟨behind, ']', [']']⟩ :: closing) = some [] := by
      rw [closeArgument?, dropOptional]
      simpa [dropSeen?] using hends
    have hrest : dropSeen? [')'] (dropBlanks (⟨behind, ']', [']']⟩ :: closing)) = none := by
      rw [dropBlanks_of_not_isBlank hbracket]
      rfl
    rw [argument?_append_entries first others _ hrest, argument?_eq_some_nil_iff.2 hclose]
    simp only [hline, Option.map_some, List.append_nil]
    rfl

end Argument

end ModuleCompiler.Script
