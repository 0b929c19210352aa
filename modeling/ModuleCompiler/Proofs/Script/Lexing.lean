import Mathlib.Data.Bool.AllAny
import Mathlib.Data.List.TakeWhile
import ModuleCompiler.Proofs.Script.Alignment
import ModuleCompiler.Script.Call

/-!
# Lexemes and what follows them

Which lexeme is read first depends on all of the text: a quote that is closed far behind starts a
string, one that is not stands alone. The rules are stated for a lexeme and the text behind it, so
that two texts can be compared one lexeme at a time.

The rules are those of `Reads`; they are the lexer's (`exists_reads`, `exists_lexemeAt_of_reads`),
and a text has the lexemes that they give one after the other and no others (`lexed_iff`). How far a
lexeme looks behind itself is in `Reads.congr`: at the next character, at whether a quote that
stands alone is closed, and at whether a block comment is. A search for a closing quote does in a
piece of text what it does there whatever follows, unless the piece ends in a backslash
(`isLocal_of_getLast?`); for most of the development that is all there is to know about it.

`view` is what is shown of a source. It is read off lexeme by lexeme (`Reads.view_eq`), a `Verbatim`
text is shown as it is written in front of any other, and a view can be cut in front of the first
quote that is seen (`view_of_append_cons`).
-/

namespace ModuleCompiler.Script

theorem isQuote_iff {c : Char} : isQuote c = true ↔ c = '"' ∨ c = '\'' := by
  simp [isQuote]

theorem ne_of_isQuote {c d : Char} (h : isQuote c = true) (hd : isQuote d = false) : c ≠ d := by
  rintro rfl
  rw [h] at hd
  exact Bool.noConfusion hd

/-! ## Closing quotes -/

section CloseQuote

variable {quote c : Char} {text body piece : Text}

@[simp] theorem closeQuote?_nil (quote : Char) : closeQuote? quote [] = none := rfl

theorem closeQuote?_self (quote : Char) (rest : Text) :
    closeQuote? quote (quote :: rest) = some [quote] := by
  cases rest <;> simp [closeQuote?]

theorem closeQuote?_cons (hquote : c ≠ quote) (hescape : c ≠ '\\') (hline : c ≠ '\n')
    (rest : Text) : closeQuote? quote (c :: rest) = (closeQuote? quote rest).map (c :: ·) := by
  cases rest <;> simp [closeQuote?, hquote, hescape, hline]

theorem closeQuote?_line (hquote : isQuote quote = true) (rest : Text) :
    closeQuote? quote ('\n' :: rest) = none := by
  have hnewline : '\n' ≠ quote := (ne_of_isQuote hquote rfl).symm
  cases rest <;> simp [closeQuote?, hnewline]

/-- A string ends in its closing quote. -/
theorem exists_concat_of_closeQuote? (h : closeQuote? quote text = some body) :
    ∃ inner, body = inner ++ [quote] := by
  fun_induction closeQuote? quote text generalizing body with
  | case1 => simp at h
  | case2 => exact ⟨[], (Option.some.inj h).symm⟩
  | case3 => simp at h
  | case4 => exact ⟨[], (Option.some.inj h).symm⟩
  | case5 next rest _ ih =>
    obtain ⟨behind, hbehind, rfl⟩ := Option.map_eq_some_iff.1 h
    obtain ⟨inner, rfl⟩ := ih hbehind
    exact ⟨'\\' :: next :: inner, rfl⟩
  | case6 => simp at h
  | case7 c next rest _ _ _ ih =>
    obtain ⟨behind, hbehind, rfl⟩ := Option.map_eq_some_iff.1 h
    obtain ⟨inner, rfl⟩ := ih hbehind
    exact ⟨c :: inner, rfl⟩

/-- The search for a closing quote goes through the piece of text, whatever stands behind it. -/
def Passes (quote : Char) (piece : Text) : Prop :=
  ∀ rest, closeQuote? quote (piece ++ rest) = (closeQuote? quote rest).map (piece ++ ·)

/-- The search for a closing quote fails in the piece of text, ends in it, or goes through it, and
what stands behind it does not matter. -/
def IsLocal (quote : Char) (piece : Text) : Prop :=
  (∀ rest, closeQuote? quote (piece ++ rest) = none) ∨
    (∃ body, ∀ rest, closeQuote? quote (piece ++ rest) = some body) ∨ Passes quote piece

theorem passes_nil (quote : Char) : Passes quote [] := by
  intro rest
  simp

theorem Passes.append {front : Text} (hfront : Passes quote front) (hpiece : Passes quote piece) :
    Passes quote (front ++ piece) := by
  intro rest
  rw [List.append_assoc, hfront, hpiece, Option.map_map]
  simp [Function.comp_def]

theorem Passes.closeQuote?_eq_some_iff (h : Passes quote piece) {rest : Text} :
    closeQuote? quote (piece ++ rest) = some (piece ++ body) ↔
      closeQuote? quote rest = some body := by
  rw [h, Option.map_eq_some_iff]
  simp

theorem passes_singleton (hquote : c ≠ quote) (hescape : c ≠ '\\') (hline : c ≠ '\n') :
    Passes quote [c] :=
  closeQuote?_cons hquote hescape hline

/-- A search goes through a piece with no quote of its kind, no backslash and no line break. -/
theorem passes_of_not_mem (hquote : quote ∉ piece) (hescape : '\\' ∉ piece)
    (hline : '\n' ∉ piece) : Passes quote piece := by
  induction piece with
  | nil => exact passes_nil quote
  | cons c rest ih =>
    have hfirst : Passes quote [c] := passes_singleton (List.ne_of_not_mem_cons hquote).symm
      (List.ne_of_not_mem_cons hescape).symm (List.ne_of_not_mem_cons hline).symm
    exact hfirst.append (ih (List.not_mem_of_not_mem_cons hquote)
      (List.not_mem_of_not_mem_cons hescape) (List.not_mem_of_not_mem_cons hline))

theorem Passes.isLocal_append {front : Text} (hfront : Passes quote front)
    (hpiece : IsLocal quote piece) : IsLocal quote (front ++ piece) := by
  rcases hpiece with hfails | ⟨body, hends⟩ | hpasses
  · left
    intro rest
    rw [List.append_assoc, hfront, hfails, Option.map_none]
  · refine .inr (.inl ⟨front ++ body, fun rest => ?_⟩)
    rw [List.append_assoc, hfront, hends, Option.map_some]
  · exact .inr (.inr (hfront.append hpasses))

/-- Where two texts go on behind a piece that is local, a search that finds nothing in the one finds
nothing in the other. -/
theorem IsLocal.closeQuote?_eq_none {rest other : Text} (h : IsLocal quote piece)
    (hrest : closeQuote? quote rest = none → closeQuote? quote other = none)
    (hnone : closeQuote? quote (piece ++ rest) = none) :
    closeQuote? quote (piece ++ other) = none := by
  rcases h with hfails | ⟨body, hends⟩ | hpasses
  · exact hfails other
  · rw [hends] at hnone
    exact absurd hnone (by simp)
  · rw [hpasses, Option.map_eq_none_iff] at hnone ⊢
    exact hrest hnone

/-- What is left of a text behind a piece of it ends as the text does. -/
theorem getLast?_ne_of_append (front : Text) {rest : Text} (h : (front ++ rest).getLast? ≠ some c) :
    rest.getLast? ≠ some c := by
  intro heq
  exact h (by rw [List.getLast?_append, heq, Option.some_or])

/-- Only a backslash at its end lets a piece of text reach behind itself. -/
theorem isLocal_of_getLast? (hquote : isQuote quote = true)
    (hend : piece.getLast? ≠ some '\\') : IsLocal quote piece := by
  fun_induction closeQuote? quote piece with
  | case1 => exact .inr (.inr (passes_nil quote))
  | case2 => exact .inr (.inl ⟨_, closeQuote?_self quote⟩)
  -- a single character, which is the last one
  | case3 c hc =>
    by_cases hline : c = '\n'
    · left
      intro rest
      rw [hline]
      exact closeQuote?_line hquote rest
    · have hescape : c ≠ '\\' := by simpa using hend
      exact .inr (.inr (passes_singleton hc hescape hline))
  | case4 next rest => exact .inr (.inl ⟨_, fun _ => closeQuote?_self quote _⟩)
  -- a backslash takes the next character with it
  | case5 next rest hescape ih =>
    have hpasses : Passes quote ['\\', next] := by
      intro rest
      simp [closeQuote?, hescape]
    exact hpasses.isLocal_append (ih (getLast?_ne_of_append ['\\', next] hend))
  | case6 =>
    left
    exact fun _ => closeQuote?_line hquote _
  | case7 c next rest hc hescape hline ih =>
    exact (passes_singleton hc hescape hline).isLocal_append (ih (getLast?_ne_of_append [c] hend))

theorem isLocal_concat {last : Char} (hquote : isQuote quote = true) (hlast : isQuote last = true)
    (front : Text) : IsLocal quote (front ++ [last]) := by
  refine isLocal_of_getLast? hquote ?_
  rw [List.getLast?_concat]
  exact fun heq => ne_of_isQuote hlast rfl (Option.some.inj heq)

/-- A string is closed by the first of its quotes, if nothing takes away its meaning. -/
theorem closeQuote?_ne_none_of_mem (hmem : quote ∈ piece) (hescape : '\\' ∉ piece)
    (hline : '\n' ∉ piece) (rest : Text) : closeQuote? quote (piece ++ rest) ≠ none := by
  obtain ⟨front, back, rfl, hfront⟩ := List.eq_append_cons_of_mem hmem
  have hpasses : Passes quote front := passes_of_not_mem hfront
    (fun h => hescape (List.mem_append_left _ h)) (fun h => hline (List.mem_append_left _ h))
  rw [List.append_assoc, List.cons_append, hpasses, closeQuote?_self]
  simp

/-- A string that is closed is so whatever follows it. -/
theorem closeQuote?_of_append (hquote : isQuote quote = true) {rest : Text}
    (h : closeQuote? quote (body ++ rest) = some body) (other : Text) :
    closeQuote? quote (body ++ other) = some body := by
  obtain ⟨inner, rfl⟩ := exists_concat_of_closeQuote? h
  rcases isLocal_concat hquote hquote inner with hfails | ⟨ended, hends⟩ | hpasses
  · rw [hfails] at h
    exact absurd h (by simp)
  · rw [hends] at h ⊢
    exact h
  · -- behind the body a search would have to end without a quote
    rw [hpasses, Option.map_eq_some_iff] at h
    obtain ⟨nothing, hnothing, hbody⟩ := h
    obtain ⟨before, rfl⟩ := exists_concat_of_closeQuote? hnothing
    simp at hbody

end CloseQuote

/-! ## Closing marks of comments -/

theorem closeBlock?_ne_some_nil (text : Text) : closeBlock? text ≠ some [] := by
  fun_cases closeBlock? text <;> simp

/-- A block comment that is closed is so whatever follows it. -/
theorem closeBlock?_of_append {body rest : Text} (h : closeBlock? (body ++ rest) = some body)
    (other : Text) : closeBlock? (body ++ other) = some body := by
  induction body with
  | nil => exact absurd h (closeBlock?_ne_some_nil _)
  | cons c body ih =>
    rcases body with _ | ⟨next, body⟩
    · -- a single character closes nothing
      rcases rest with _ | ⟨next, rest⟩
      · simp [closeBlock?] at h
      · rw [List.singleton_append, closeBlock?] at h
        split at h
        · simp at h
        · obtain ⟨inner, hinner, heq⟩ := Option.map_eq_some_iff.1 h
          obtain ⟨-, rfl⟩ := List.cons.inj heq
          exact absurd hinner (closeBlock?_ne_some_nil _)
    · rw [List.cons_append, List.cons_append, closeBlock?] at h ⊢
      split at h
      · rename_i hmark
        rw [if_pos hmark]
        exact h
      · rename_i hmark
        obtain ⟨inner, hinner, heq⟩ := Option.map_eq_some_iff.1 h
        obtain ⟨-, rfl⟩ := List.cons.inj heq
        rw [if_neg hmark, ← List.cons_append, ih hinner, Option.map_some]

theorem closeBlock?_eq_none_iff {text : Text} :
    closeBlock? text = none ↔ ¬ ['*', '/'] <:+: text := by
  fun_induction closeBlock? text with
  | case1 => simp
  | case2 => simp [List.infix_cons_iff]
  | case3 c next rest hmark =>
    obtain ⟨rfl, rfl⟩ := hmark
    simpa using (List.prefix_append ['*', '/'] rest).isInfix
  | case4 c next rest hmark ih =>
    have hstart : ¬ ['*', '/'] <+: c :: next :: rest := by
      simpa [List.cons_prefix_cons, eq_comm] using hmark
    have hcons : ['*', '/'] <:+: c :: next :: rest ↔ ['*', '/'] <:+: next :: rest := by
      rw [List.infix_cons_iff, or_iff_right hstart]
    rw [Option.map_eq_none_iff, ih, hcons]

/-! ## The rules of lexemes -/

/-- The lexeme is the first one of a text in which `after` follows it. -/
inductive Reads : Lexeme → Text → Prop
  | quoted (quote : Char) (body after : Text) (hquote : isQuote quote = true)
      (h : closeQuote? quote (body ++ after) = some body) : Reads (.quoted (quote :: body)) after
  | line (line after : Text) (hline : '\n' ∉ line) (hafter : ∀ c ∈ after.head?, c = '\n') :
      Reads (.comment ('/' :: '/' :: line)) after
  | block (body after : Text) (h : closeBlock? (body ++ after) = some body) :
      Reads (.comment ('/' :: '*' :: body)) after
  | unclosedQuote (quote : Char) (after : Text) (hquote : isQuote quote = true)
      (h : closeQuote? quote after = none) : Reads (.plain quote) after
  | unclosedBlock (block : Text) (h : closeBlock? block = none) : Reads (.plain '/') ('*' :: block)
  | slash (after : Text) (hafter : ∀ c ∈ after.head?, c ≠ '/' ∧ c ≠ '*') : Reads (.plain '/') after
  | other (c : Char) (after : Text) (hquote : isQuote c = false) (hslash : c ≠ '/') :
      Reads (.plain c) after

/-- A text starts with a lexeme that the rules give. -/
theorem exists_reads (c : Char) (rest : Text) :
    ∃ lexeme after, c :: rest = lexeme.text ++ after ∧ Reads lexeme after := by
  -- A quote, a slash or any other character; a slash is told apart by the next one.
  by_cases hquote : isQuote c = true
  · rcases hclose : closeQuote? c rest with _ | body
    · exact ⟨.plain c, rest, rfl, .unclosedQuote c rest hquote hclose⟩
    · obtain ⟨after, rfl⟩ := isPrefix_of_closeQuote? hclose
      exact ⟨.quoted (c :: body), after, rfl, .quoted c body after hquote hclose⟩
  by_cases hslash : c = '/'
  · subst hslash
    rcases rest with _ | ⟨next, rest⟩
    · exact ⟨.plain '/', [], rfl, .slash [] (by simp)⟩
    by_cases hline : next = '/'
    · subst hline
      refine ⟨.comment ('/' :: '/' :: rest.takeWhile (· != '\n')), rest.dropWhile (· != '\n'),
        by simp [Lexeme.text], .line _ _ (fun hmem => ?_) fun c hc => ?_⟩
      · simpa using List.mem_takeWhile_imp hmem
      · have hnot := List.head?_dropWhile_not (· != '\n') rest
        rw [hc] at hnot
        simpa using hnot
    by_cases hblock : next = '*'
    · subst hblock
      rcases hclose : closeBlock? rest with _ | body
      · exact ⟨.plain '/', '*' :: rest, rfl, .unclosedBlock rest hclose⟩
      · obtain ⟨after, rfl⟩ := isPrefix_of_closeBlock? hclose
        exact ⟨.comment ('/' :: '*' :: body), after, rfl, .block body after hclose⟩
    · exact ⟨.plain '/', next :: rest, rfl, .slash _ (by simpa using ⟨hline, hblock⟩)⟩
  · exact ⟨.plain c, rest, rfl, .other c rest (Bool.eq_false_iff.2 hquote) hslash⟩

/-- What the rules give is the lexeme that is read. -/
theorem exists_lexemeAt_of_reads {lexeme : Lexeme} {after : Text} (h : Reads lexeme after) :
    ∃ c body, lexeme.text = c :: body ∧ lexemeAt c (body ++ after) = lexeme := by
  -- The rules, in the order in which the lexer tries them.
  cases h with
  | quoted quote body _ hquote h =>
    refine ⟨quote, body, rfl, ?_⟩
    unfold lexemeAt
    rw [if_pos (isQuote_iff.1 hquote), h]
  | line line _ hline hafter =>
    refine ⟨'/', '/' :: line, rfl, ?_⟩
    -- the comment goes on to the line break that comes behind it, and no further
    have htake : (line ++ after).takeWhile (· != '\n') = line := by
      have hkept : ∀ c ∈ line, (c != '\n') = true := by
        intro c hc
        simpa using ne_of_mem_of_not_mem hc hline
      rw [List.takeWhile_append_of_pos hkept]
      rcases after with _ | ⟨next, rest⟩
      · simp
      · simp [hafter next rfl]
    simp [lexemeAt, htake]
  | block body _ h =>
    refine ⟨'/', '*' :: body, rfl, ?_⟩
    simp [lexemeAt, h]
  | unclosedQuote quote _ hquote h =>
    refine ⟨quote, [], rfl, ?_⟩
    unfold lexemeAt
    rw [if_pos (isQuote_iff.1 hquote), List.nil_append, h]
  | unclosedBlock block h =>
    refine ⟨'/', [], rfl, ?_⟩
    simp [lexemeAt, h]
  | slash _ hafter =>
    refine ⟨'/', [], rfl, ?_⟩
    unfold lexemeAt
    rw [if_neg (by decide), if_pos rfl, List.nil_append]
    split
    · exact absurd rfl (hafter '/' rfl).1
    · exact absurd rfl (hafter '*' rfl).2
    · rfl
  | other c _ hquote hslash =>
    refine ⟨c, [], rfl, ?_⟩
    have hnot : ¬ (c = '"' ∨ c = '\'') := by
      rw [← isQuote_iff, hquote]
      exact Bool.false_ne_true
    unfold lexemeAt
    rw [if_neg hnot, if_neg hslash]

/-- A lexeme is read in front of another text that starts alike, if no quote is closed there that
was not, and no comment. -/
theorem Reads.congr {lexeme : Lexeme} {after other : Text} (h : Reads lexeme after)
    (hhead : other.head? = after.head?)
    (hclose : ∀ quote, lexeme = .plain quote → isQuote quote = true →
      closeQuote? quote after = none → closeQuote? quote other = none)
    (hmark : ['*', '/'] <:+: other.tail → ['*', '/'] <:+: after.tail) : Reads lexeme other := by
  -- What a closed lexeme has read is in front of the other text too. The two that are not closed
  -- look further, and there the search must fail again.
  cases h with
  | quoted quote body _ hquote h =>
    exact .quoted quote body _ hquote (closeQuote?_of_append hquote h _)
  | line line _ hline hbreak => exact .line line _ hline (by rwa [hhead])
  | block body _ h => exact .block body _ (closeBlock?_of_append h _)
  | unclosedQuote quote _ hquote h =>
    exact .unclosedQuote quote _ hquote (hclose quote rfl hquote h)
  | unclosedBlock block h =>
    rcases other with _ | ⟨c, rest⟩
    · simp at hhead
    · obtain rfl : c = '*' := Option.some.inj hhead
      rw [closeBlock?_eq_none_iff] at h
      exact .unclosedBlock rest (closeBlock?_eq_none_iff.2 (mt hmark h))
  | slash _ hnext => exact .slash _ (by rwa [hhead])
  | other c _ hquote hslash => exact .other c _ hquote hslash

/-! ## The view of a source -/

/-- What the masked view shows of a source, and what is written there. -/
def view (source : Text) : List (Char × Text) :=
  (lexemes source).flatMap Lexeme.shown

/-- A text that the view shows as it is written. -/
def asWritten (text : Text) : List (Char × Text) :=
  text.map fun c => (c, [c])

@[simp] theorem view_nil : view [] = [] := rfl

/-- What a view has written is the source. -/
@[simp] theorem flatMap_snd_view (source : Text) : (view source).flatMap Prod.snd = source := by
  simp [view, List.flatMap_assoc, flatMap_snd_shown, flatMap_text_lexemes]

@[simp] theorem flatMap_snd_asWritten (text : Text) :
    (asWritten text).flatMap Prod.snd = text := by
  simp [asWritten, List.flatMap_map]

@[simp] theorem map_fst_asWritten (text : Text) : (asWritten text).map Prod.fst = text := by
  simp [asWritten, Function.comp_def]

/-- What a cell shows, and what is written there. -/
def Cell.shown (cell : Cell) : Char × Text :=
  (cell.seen, cell.written)

@[simp] theorem map_shown_place (offset : Nat) (shown : List (Char × Text)) :
    (place offset shown).map Cell.shown = shown := by
  induction shown generalizing offset with
  | nil => rfl
  | cons head rest ih => simp [place, ih, Cell.shown]

theorem map_shown_cells (source : Text) : (cells source).map Cell.shown = view source :=
  map_shown_place 0 (view source)

theorem snd_of_mem_asWritten {text : Text} {shown : Char × Text} (h : shown ∈ asWritten text) :
    shown.2 = [shown.1] := by
  obtain ⟨c, -, rfl⟩ := List.mem_map.1 h
  rfl

theorem asWritten_flatMap_snd {shown : List (Char × Text)}
    (h : ∀ character ∈ shown, character.2 = [character.1]) :
    asWritten (shown.flatMap Prod.snd) = shown := by
  induction shown with
  | nil => rfl
  | cons first rest ih =>
    obtain ⟨hfirst, hrest⟩ := List.forall_mem_cons.1 h
    have hfirst' : first = (first.1, [first.1]) := Prod.ext rfl hfirst
    rw [List.flatMap_cons, hfirst, List.singleton_append]
    show (first.1, [first.1]) :: asWritten (rest.flatMap Prod.snd) = first :: rest
    rw [ih hrest, ← hfirst']

theorem lexemesFrom_eq (skip : Nat) (source : Text) :
    lexemesFrom skip source = lexemes (source.drop skip) := by
  induction source generalizing skip with
  | nil => simp [lexemesFrom, lexemes]
  | cons c rest ih =>
    cases skip with
    | zero => rfl
    | succ skip => rw [lexemesFrom, ih, List.drop_succ_cons]

/-- The lexemes of a text are its first one and then those of what follows it. -/
theorem Reads.lexemes_eq {lexeme : Lexeme} {after : Text} (h : Reads lexeme after) :
    lexemes (lexeme.text ++ after) = lexeme :: lexemes after := by
  obtain ⟨c, body, htext, hlexeme⟩ := exists_lexemeAt_of_reads h
  have hlength : lexeme.text.length - 1 = body.length := by
    rw [htext]
    exact Nat.add_sub_cancel _ _
  rw [htext, List.cons_append, lexemes, lexemesFrom, hlexeme, hlength, lexemesFrom_eq,
    List.drop_left]

/-- The view of a text shows its first lexeme and then the view of what follows it. -/
theorem Reads.view_eq {lexeme : Lexeme} {after : Text} (h : Reads lexeme after) :
    view (lexeme.text ++ after) = lexeme.shown ++ view after := by
  rw [view, h.lexemes_eq, List.flatMap_cons, ← view]

/-- The text is shown as it is written, whatever follows it. -/
def Verbatim (text : Text) : Prop :=
  ∀ rest, view (text ++ rest) = asWritten text ++ view rest

theorem verbatim_nil : Verbatim [] := fun _ => rfl

theorem Verbatim.append {text more : Text} (h : Verbatim text) (hmore : Verbatim more) :
    Verbatim (text ++ more) := by
  intro rest
  rw [List.append_assoc, h, hmore, asWritten, asWritten, asWritten, List.map_append,
    List.append_assoc]

theorem view_cons {c : Char} (hquote : isQuote c = false) (hslash : c ≠ '/') (rest : Text) :
    view (c :: rest) = (c, [c]) :: view rest :=
  (Reads.other c rest hquote hslash).view_eq

/-- Characters that start neither strings nor comments are shown as they are written. -/
theorem verbatim_of_plain {text : Text} (h : ∀ c ∈ text, isQuote c = false ∧ c ≠ '/') :
    Verbatim text := by
  induction text with
  | nil => exact verbatim_nil
  | cons c text ih =>
    obtain ⟨⟨hquote, hslash⟩, htext⟩ := List.forall_mem_cons.1 h
    intro rest
    rw [List.cons_append, view_cons hquote hslash, ih htext]
    rfl

theorem verbatim_joined {separator : Text} {texts : List Text} (hseparator : Verbatim separator)
    (htexts : ∀ text ∈ texts, Verbatim text) : Verbatim (Text.joined separator texts) := by
  -- On the texts, of which the last has no separator behind it.
  induction texts with
  | nil => exact verbatim_nil
  | cons text rest ih =>
    obtain ⟨htext, hrest⟩ := List.forall_mem_cons.1 htexts
    rcases rest with _ | ⟨next, rest⟩
    · rw [Text.joined_singleton]
      exact htext
    · rw [Text.joined_cons_cons]
      exact (htext.append hseparator).append (ih hrest)

/-- A string is shown as it is written. -/
theorem verbatim_quoted {quote : Char} {inner : Text} (hquote : isQuote quote = true)
    (hinner : quote ∉ inner) (hescape : '\\' ∉ inner) (hline : '\n' ∉ inner) :
    Verbatim (quote :: inner ++ [quote]) := by
  intro rest
  have hclose : closeQuote? quote ((inner ++ [quote]) ++ rest) = some (inner ++ [quote]) := by
    rw [List.append_assoc, (passes_of_not_mem hinner hescape hline).closeQuote?_eq_some_iff]
    exact closeQuote?_self quote rest
  exact (Reads.quoted quote (inner ++ [quote]) rest hquote hclose).view_eq

/-- The cells of a text that is shown as it is written, from byte `offset` on. -/
def placed (offset : Nat) (text : Text) : List Cell :=
  place offset (asWritten text)

@[simp] theorem map_seen_placed (offset : Nat) (text : Text) :
    (placed offset text).map Cell.seen = text := by
  rw [placed, map_seen_place, map_fst_asWritten]

@[simp] theorem flatMap_written_placed (offset : Nat) (text : Text) :
    (placed offset text).flatMap Cell.written = text := by
  rw [placed, flatMap_written_place, flatMap_snd_asWritten]

theorem placed_append (offset : Nat) (text more : Text) :
    placed offset (text ++ more) =
      placed offset text ++ placed (offset + Text.byteLength text) more := by
  have hseen : seenLength (asWritten text) = Text.byteLength text := by
    rw [seenLength, map_fst_asWritten]
  rw [placed, placed, placed, asWritten, List.map_append, ← asWritten, ← asWritten, place_append,
    hseen]

theorem placed_cons (offset : Nat) (c : Char) (text : Text) :
    placed offset (c :: text) = ⟨offset, c, [c]⟩ :: placed (offset + c.utf8Size) text := rfl

theorem seen_of_mem_placed {offset : Nat} {text : Text} {cell : Cell}
    (h : cell ∈ placed offset text) : cell.seen ∈ text := by
  rw [← map_seen_placed offset text]
  exact List.mem_map_of_mem h

theorem cells_of_verbatim {text : Text} (h : Verbatim text) : cells text = placed 0 text := by
  have hview := h []
  rw [List.append_nil, view_nil, List.append_nil] at hview
  exact congrArg (place 0) hview

/-- What holds of the empty text and is kept by a lexeme in front holds of every text. -/
@[elab_as_elim]
theorem lexeme_induction {motive : Text → Prop} (nil : motive [])
    (cons : ∀ lexeme after, Reads lexeme after → motive after → motive (lexeme.text ++ after))
    (source : Text) : motive source := by
  -- On the length: a lexeme is not empty, so what follows it is shorter.
  induction hlength : source.length using Nat.strong_induction_on generalizing source with
  | _ length ih =>
    rcases source with _ | ⟨c, rest⟩
    · exact nil
    · obtain ⟨lexeme, after, hsource, hreads⟩ := exists_reads c rest
      obtain ⟨_, body, htext, -⟩ := exists_lexemeAt_of_reads hreads
      have hshorter : after.length < length := by
        rw [← hlength, hsource, htext, List.length_append, List.length_cons]
        omega
      rw [hsource]
      exact cons lexeme after hreads (ih _ hshorter after rfl)

/-- The text is made of the lexemes, each of which is read in front of the ones behind it. -/
inductive Lexed : List Lexeme → Text → Prop
  | nil : Lexed [] []
  | cons {lexeme : Lexeme} {rest : List Lexeme} {after : Text} (h : Reads lexeme after)
      (tail : Lexed rest after) : Lexed (lexeme :: rest) (lexeme.text ++ after)

/-- The lexemes of a text are those that the rules give, and no others. -/
theorem lexed_iff {source : Text} {found : List Lexeme} :
    Lexed found source ↔ found = lexemes source := by
  constructor
  · intro h
    induction h with
    | nil => rfl
    | cons hreads _ ih => rw [hreads.lexemes_eq, ih]
  · rintro rfl
    induction source using lexeme_induction with
    | nil => exact .nil
    | cons lexeme after hreads ih =>
      rw [hreads.lexemes_eq]
      exact .cons hreads ih

/-- A comment shows its line breaks, and spaces for everything else. -/
theorem mem_blanked {c : Char} {shown : Char × Text} (h : shown ∈ blanked c) :
    shown = ('\n', ['\n']) ∨ shown.1 = ' ' ∧ '\n' ∉ shown.2 := by
  unfold blanked at h
  split at h
  · rename_i hline
    rw [List.mem_singleton.1 h, hline]
    exact .inl rfl
  · rename_i hline
    right
    rcases List.mem_cons.1 h with rfl | hfill
    · exact ⟨rfl, by simpa using Ne.symm hline⟩
    · rw [List.eq_of_mem_replicate hfill]
      exact ⟨rfl, List.not_mem_nil⟩

/-- What is seen is written as it is seen, or blanks a character that breaks no line. -/
theorem mem_view {source : Text} {shown : Char × Text} (h : shown ∈ view source) :
    shown.2 = [shown.1] ∨ shown.1 = ' ' ∧ '\n' ∉ shown.2 := by
  obtain ⟨lexeme, -, hmem⟩ := List.mem_flatMap.1 h
  cases lexeme with
  | quoted text => exact .inl (snd_of_mem_asWritten hmem)
  | plain c =>
    rw [List.mem_singleton.1 hmem]
    exact .inl rfl
  | comment text =>
    obtain ⟨c, -, hblank⟩ := List.mem_flatMap.1 hmem
    rcases mem_blanked hblank with rfl | hspace
    · exact .inl rfl
    · exact .inr hspace

/-- A line break is seen where one is written, and nowhere else. -/
theorem line_mem_iff_of_mem_view {source : Text} {shown : Char × Text} (h : shown ∈ view source) :
    '\n' ∈ shown.2 ↔ shown.1 = '\n' := by
  rcases mem_view h with hsame | ⟨hspace, hline⟩
  · rw [hsame, List.mem_singleton, eq_comm]
  · rw [hspace]
    exact iff_of_false hline (by decide)

theorem line_mem_written_iff {source : Text} {cell : Cell} (h : cell ∈ cells source) :
    '\n' ∈ cell.written ↔ cell.seen = '\n' := by
  have hshown : cell.shown ∈ view source := by
    rw [← map_shown_cells]
    exact List.mem_map_of_mem h
  exact line_mem_iff_of_mem_view hshown

/-! ## Quotes that are seen -/

/-- No quote is seen in a comment. -/
theorem not_isQuote_of_mem_comment {text : Text} {shown : Char × Text}
    (h : shown ∈ (Lexeme.comment text).shown) : ¬ isQuote shown.1 = true := by
  obtain ⟨c, -, hblank⟩ := List.mem_flatMap.1 h
  rcases mem_blanked hblank with rfl | ⟨hspace, -⟩
  · decide
  · rw [hspace]
    decide

/-- A quote that is seen is written. -/
theorem snd_eq_of_isQuote {source : Text} {shown : Char × Text} (h : shown ∈ view source)
    (hquote : isQuote shown.1 = true) : shown.2 = [shown.1] := by
  rcases mem_view h with hsame | ⟨hspace, -⟩
  · exact hsame
  · rw [hspace] at hquote
    exact absurd hquote (by decide)

/-- What is seen from a quote on is the view of the text from there on, when no quote is seen before
it. -/
theorem view_of_append_cons {source : Text} {front back : List (Char × Text)}
    {quote : Char × Text} (h : view source = front ++ quote :: back)
    (hfront : ∀ shown ∈ front, isQuote shown.1 = false) (hquote : isQuote quote.1 = true) :
    view ((quote :: back).flatMap Prod.snd) = quote :: back := by
  induction source using lexeme_induction generalizing front with
  | nil => simp at h
  | cons lexeme after hreads ih =>
    rcases front with _ | ⟨first, front⟩
    · rw [List.nil_append] at h
      rw [← h, flatMap_snd_view]
    rw [hreads.view_eq] at h
    rcases append_eq_append_cons h with ⟨more, hmore, hafter⟩ | ⟨more, hshown, -⟩
    · refine ih hafter fun shown hmem => hfront shown ?_
      rw [hmore]
      exact List.mem_append_right _ hmem
    · -- a lexeme with a quote behind its first character is a string, which starts with a quote
      exfalso
      have hmem : quote ∈ lexeme.shown := by
        rw [hshown]
        simp
      cases hreads with
      | quoted start body _ hstart _ =>
        obtain ⟨rfl, -⟩ := List.cons.inj hshown
        rw [hfront _ List.mem_cons_self] at hstart
        exact Bool.false_ne_true hstart
      | line | block => exact not_isQuote_of_mem_comment hmem hquote
      | unclosedQuote | unclosedBlock | slash | other => simp [Lexeme.shown] at hshown

/-- A lexeme that goes on behind a quote in it is a string, and ends in another quote. -/
theorem Reads.exists_eq_quoted {lexeme : Lexeme} {after : Text} (h : Reads lexeme after)
    {front more : List (Char × Text)} {opening first : Char × Text}
    (hshown : lexeme.shown = front ++ opening :: first :: more)
    (hopening : isQuote opening.1 = true) :
    ∃ text, lexeme = .quoted text ∧ ∃ last ∈ first :: more, isQuote last.1 = true := by
  have hmem : opening ∈ lexeme.shown := by
    rw [hshown]
    simp
  have hlength : lexeme.shown.length ≠ 1 := by
    rw [hshown]
    simp
    omega
  cases h with
  | quoted quote body _ hquote hclose =>
    obtain ⟨inner, rfl⟩ := exists_concat_of_closeQuote? hclose
    refine ⟨_, rfl, (quote, [quote]), List.mem_of_getLast? ?_, hquote⟩
    have hquoted : (Lexeme.quoted (quote :: (inner ++ [quote]))).shown =
        asWritten (quote :: inner) ++ [(quote, [quote])] := by simp [Lexeme.shown, asWritten]
    have hlast : (front ++ opening :: first :: more).getLast? = (first :: more).getLast? := by
      rw [List.append_cons, List.getLast?_append_of_ne_nil _ (List.cons_ne_nil _ _)]
    rw [← hlast, ← hshown, hquoted, List.getLast?_concat]
  | line | block => exact absurd hopening (not_isQuote_of_mem_comment hmem)
  | unclosedQuote | unclosedBlock | slash | other => exact absurd rfl hlength

end ModuleCompiler.Script
