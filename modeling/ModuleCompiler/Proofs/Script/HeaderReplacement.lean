import ModuleCompiler.Proofs.Script.HeaderSearch

/-!
# Headers in the place of headers

A header that is written in the place of the first one is not always found again: the texts in its
list may hold the keyword that ends a header, and its quotes may close a string that was left open
in front of it, or be part of one.

The first of the two is about the header alone. A listing has no keyword outside of its texts
(`Unmarked.infix_listing_append`), so a header ends in its own keyword unless a text in its list has
one (`exists_headerEnd?_header`). The second is about what is in front. If it is `Detached`, its
lexemes end where the header starts, and they are the same in front of any text that starts alike
(`Detached.exists_view`); so are its cells (`Detached.cells_eq`), and the search comes to the new
header as it came to the old one. `replaceHeader_replaceHeader_iff` puts the two together.
-/

namespace ModuleCompiler.Script

open Unicode

/-! ## What is in front of a header -/

/-- The lexemes of a text end where `following` starts. A quote that stands alone in it does so
whatever follows, since its line ends in the text. -/
inductive Detached (following : Text) : Text → Prop
  | nil : Detached following []
  | cons {lexeme : Lexeme} {after : Text} (reads : Reads lexeme (after ++ following))
      (alone : ∀ quote, lexeme = .plain quote → isQuote quote = true →
        ∀ other, closeQuote? quote (after ++ other) = none)
      (tail : Detached following after) : Detached following (lexeme.text ++ after)

section Detached

variable {first : Char} {text other : Text}
  (hfirst : first ∉ ['*', '/']) (hmark : ['*', '/'] <:+: other → ['*', '/'] <:+: text)

include hfirst hmark

/-- A lexeme is read in front of another text that starts alike. -/
theorem Reads.in_front {lexeme : Lexeme} {after : Text} (h : Reads lexeme (after ++ first :: text))
    (halone : ∀ quote, lexeme = .plain quote → isQuote quote = true →
      ∀ other, closeQuote? quote (after ++ other) = none) :
    Reads lexeme (after ++ first :: other) := by
  have hhead : (after ++ first :: other).head? = (after ++ first :: text).head? := by
    simp [List.head?_append]
  refine h.congr hhead (fun quote hplain hquote _ => halone quote hplain hquote _)
    fun hclosed => ?_
  -- a closing mark of a comment cannot reach over the first character of the other text
  rcases after with _ | ⟨c, after⟩
  · exact hmark hclosed
  · rcases infix_or_infix_of_append_cons hfirst hclosed with hafter | hother
    · exact hafter.trans (List.prefix_append _ _).isInfix
    · exact (hmark hother).trans ⟨after ++ [first], [], by simp⟩

/-- A detached text is shown in front of another text as it was. -/
theorem Detached.exists_view {before : Text} (h : Detached (first :: text) before) :
    ∃ shown, view (before ++ first :: text) = shown ++ view (first :: text) ∧
      view (before ++ first :: other) = shown ++ view (first :: other) := by
  induction h with
  | nil => exact ⟨[], rfl, rfl⟩
  | @cons lexeme after reads alone _ ih =>
    obtain ⟨shown, htext, hother⟩ := ih
    refine ⟨lexeme.shown ++ shown, ?_, ?_⟩
    · rw [List.append_assoc, reads.view_eq, htext, List.append_assoc]
    · rw [List.append_assoc, (reads.in_front hfirst hmark alone).view_eq, hother,
        List.append_assoc]

end Detached

/-- Of two ways to cut what is shown behind the same text, in front of something that is written,
one is the other. -/
theorem eq_of_flatMap_snd_eq {front back front' back' : List (Char × Text)}
    (h : front ++ back = front' ++ back')
    (hwritten : front.flatMap Prod.snd = front'.flatMap Prod.snd)
    (hback : ∀ shown ∈ back.head?, shown.2 ≠ []) (hback' : ∀ shown ∈ back'.head?, shown.2 ≠ []) :
    front = front' := by
  rcases List.append_eq_append_iff.1 h with ⟨more, rfl, rfl⟩ | ⟨more, rfl, rfl⟩
  · rcases more with _ | ⟨shown, more⟩
    · exact (List.append_nil _).symm
    · rw [List.flatMap_append, List.self_eq_append_right, List.flatMap_cons] at hwritten
      exact absurd (List.append_eq_nil_iff.1 hwritten).1 (hback shown rfl)
  · rcases more with _ | ⟨shown, more⟩
    · exact List.append_nil _
    · rw [List.flatMap_append, eq_comm, List.self_eq_append_right,
        List.flatMap_cons] at hwritten
      exact absurd (List.append_eq_nil_iff.1 hwritten).1 (hback' shown rfl)

theorem length_place (offset : Nat) (shown : List (Char × Text)) :
    (place offset shown).length = shown.length := by
  rw [← List.length_map (f := Cell.shown), map_shown_place]

/-- The cells of a detached text are in front of another text what they were. -/
theorem Detached.cells_eq {before text other : Text} {c : Char} {front after : List Cell}
    {cell : Cell} (h : Detached (c :: text) before) (hc : Config.isCalleeCharacter c = true)
    (hmark : ['*', '/'] <:+: other → ['*', '/'] <:+: text)
    (hcells : cells (before ++ c :: text) = front ++ cell :: after)
    (hfront : front.flatMap Cell.written = before) (hcell : cell.written ≠ []) :
    cells (before ++ c :: other) = front ++ place cell.offset (view (c :: other)) := by
  have hfirst : c ∉ ['*', '/'] := by
    simpa using ⟨Config.ne_of_isCalleeCharacter hc (by decide),
      Config.ne_of_isCalleeCharacter hc (by decide)⟩
  obtain ⟨shown, htext, hother⟩ := h.exists_view hfirst hmark
  have hview : view (c :: text) = (c, [c]) :: view text :=
    view_cons (Config.isQuote_of_isCalleeCharacter hc)
      (Config.ne_of_isCalleeCharacter hc (by decide)) text
  -- The cells in front are those of the detached text: both are what is shown of it, and what comes
  -- behind it is written.
  have hcut : front.map Cell.shown ++ (cell :: after).map Cell.shown =
      shown ++ view (c :: text) := by
    rw [← htext, ← map_shown_cells, hcells, List.map_append]
  have hwritten : shown.flatMap Prod.snd = before := by
    have hsource := flatMap_snd_view (before ++ c :: text)
    rw [htext, List.flatMap_append, flatMap_snd_view] at hsource
    exact List.append_cancel_right hsource
  have hshown : front.map Cell.shown = shown := by
    refine eq_of_flatMap_snd_eq hcut ?_ ?_ ?_
    · rw [hwritten, ← hfront, List.flatMap_map]
      rfl
    · simpa [Cell.shown] using hcell
    · simp [hview]
  have hplaced : front ++ cell :: after =
      place 0 shown ++ place (0 + seenLength shown) (view (c :: text)) := by
    rw [← place_append, ← htext, ← hcells]
    rfl
  have hlength : front.length = (place 0 shown).length := by
    rw [length_place, ← hshown, List.length_map]
  -- so many cells, so the first one behind them starts at the same byte
  obtain ⟨rfl, hrest⟩ := List.append_inj hplaced hlength
  rw [hview, place] at hrest
  obtain ⟨rfl, -⟩ := List.cons.inj hrest
  show place 0 (view (before ++ c :: other)) = _
  rw [hother, place_append]

/-! ## Declaring headers -/

/-- A text that can be listed in a header. -/
structure Listable (text : Text) : Prop where
  quote_not_mem : '"' ∉ text
  escape_not_mem : '\\' ∉ text
  line_not_mem : '\n' ∉ text
  no_mark : ¬ ['*', '/'] <:+: text

instance : DecidablePred Listable := fun text =>
  decidable_of_iff ('"' ∉ text ∧ '\\' ∉ text ∧ '\n' ∉ text ∧ ¬ ['*', '/'] <:+: text)
    ⟨fun h => ⟨h.1, h.2.1, h.2.2.1, h.2.2.2⟩,
      fun h => ⟨h.quote_not_mem, h.escape_not_mem, h.line_not_mem, h.no_mark⟩⟩

/-- What a declaring header has between its parenthesis and its keyword. -/
def listing (id : Text) (dependencies : List Text) : Text :=
  '"' :: id ++ ("\", [" : Text)
    ++ Text.joined ", " (dependencies.map fun dependency => '"' :: dependency ++ ['"'])
    ++ ("], " : Text)

theorem header_eq (callee id : Text) (dependencies : List Text) :
    header callee id dependencies =
      callee ++ '(' :: (listing id dependencies ++ ("function" : Text)) := by
  simp [header, listing]

/-- A word without the marks between the texts of a listing. -/
structure Unmarked (word : Text) : Prop where
  nonempty : word ≠ []
  quote_not_mem : '"' ∉ word
  comma_not_mem : ',' ∉ word
  space_not_mem : ' ' ∉ word
  opening_not_mem : '[' ∉ word
  closing_not_mem : ']' ∉ word

section Listing

variable {word id : Text} {c : Char} {dependencies : List Text}

/-- A word does not start with a character that it does not have. -/
theorem infix_cons_iff_of_not_mem (hc : c ∉ word) (hne : word ≠ []) {text : Text} :
    word <:+: c :: text ↔ word <:+: text := by
  rw [List.infix_cons_iff, or_iff_right]
  intro hstart
  rcases word with _ | ⟨first, word⟩
  · exact hne rfl
  · rw [List.cons_prefix_cons] at hstart
    simp [hstart.1] at hc

namespace Unmarked

variable (hword : Unmarked word)

include hword

/-- A word that is found among quoted texts is found in one of them. -/
theorem infix_joined {texts : List Text}
    (h : word <:+: Text.joined ", " (texts.map fun text => '"' :: text ++ ['"'])) :
    ∃ text ∈ texts, word <:+: text := by
  have hquote := hword.quote_not_mem
  have hne := hword.nonempty
  -- On the texts: a quote, a comma and a space stand between any two, and the word has none.
  induction texts with
  | nil => exact absurd (List.infix_nil.1 h) hne
  | cons text rest ih =>
    rcases rest with _ | ⟨next, rest⟩
    · rw [List.map_singleton, Text.joined_singleton, List.cons_append,
        infix_cons_iff_of_not_mem hquote hne] at h
      rcases infix_or_infix_of_append_cons hquote h with htext | hnil
      · exact ⟨text, List.mem_singleton_self text, htext⟩
      · exact absurd (List.infix_nil.1 hnil) hne
    · have hjoined :
          Text.joined ", " ((text :: next :: rest).map fun text => '"' :: text ++ ['"']) =
            '"' :: (text ++ '"' :: ',' :: ' ' ::
              Text.joined ", " ((next :: rest).map fun text => '"' :: text ++ ['"'])) := by
        rw [List.map_cons, List.map_cons, Text.joined_cons_cons]
        simp
      rw [hjoined, infix_cons_iff_of_not_mem hquote hne] at h
      rcases infix_or_infix_of_append_cons hquote h with htext | hbehind
      · exact ⟨text, List.mem_cons_self, htext⟩
      · rw [infix_cons_iff_of_not_mem hword.comma_not_mem hne,
          infix_cons_iff_of_not_mem hword.space_not_mem hne] at hbehind
        obtain ⟨found, hmem, hfound⟩ := ih hbehind
        exact ⟨found, List.mem_cons_of_mem text hmem, hfound⟩

/-- A word that is found in a listing with something behind it is found in a text that is listed, or
behind. -/
theorem infix_listing_append {behind : Text} (h : word <:+: listing id dependencies ++ behind) :
    (∃ text ∈ id :: dependencies, word <:+: text) ∨ word <:+: behind := by
  have hne := hword.nonempty
  have hlisting : listing id dependencies ++ behind = '"' :: (id ++ '"' :: ',' :: ' ' :: '[' ::
      (Text.joined ", " (dependencies.map fun dependency => '"' :: dependency ++ ['"'])
        ++ ']' :: ',' :: ' ' :: behind)) := by
    simp [listing]
  rw [hlisting, infix_cons_iff_of_not_mem hword.quote_not_mem hne] at h
  rcases infix_or_infix_of_append_cons hword.quote_not_mem h with hid | hlist
  · exact .inl ⟨id, List.mem_cons_self, hid⟩
  rw [infix_cons_iff_of_not_mem hword.comma_not_mem hne,
    infix_cons_iff_of_not_mem hword.space_not_mem hne,
    infix_cons_iff_of_not_mem hword.opening_not_mem hne] at hlist
  rcases infix_or_infix_of_append_cons hword.closing_not_mem hlist with hjoined | hbehind
  · obtain ⟨text, hmem, htext⟩ := hword.infix_joined hjoined
    exact .inl ⟨text, List.mem_cons_of_mem id hmem, htext⟩
  · rw [infix_cons_iff_of_not_mem hword.comma_not_mem hne,
      infix_cons_iff_of_not_mem hword.space_not_mem hne] at hbehind
    exact .inr hbehind

end Unmarked

end Listing

theorem unmarked_keyword : Unmarked "function" := by
  constructor <;> decide

/-- A text that is listed is part of the listing. -/
theorem infix_listing {id text : Text} {dependencies : List Text}
    (h : text ∈ id :: dependencies) : text <:+: listing id dependencies := by
  rw [listing, List.append_assoc, List.append_assoc]
  rcases List.mem_cons.1 h with rfl | hmem
  · exact (List.suffix_cons '"' text).isInfix.trans (List.prefix_append _ _).isInfix
  · have hquoted : text <:+: '"' :: text ++ ['"'] := ⟨['"'], ['"'], rfl⟩
    have hjoined : '"' :: text ++ ['"'] <:+:
        Text.joined ", " (dependencies.map fun dependency => '"' :: dependency ++ ['"']) :=
      Text.infix_joined_of_mem (List.mem_map.2 ⟨text, hmem, rfl⟩)
    exact (hquoted.trans hjoined).trans ((List.prefix_append _ _).isInfix.trans
      ((List.suffix_append _ _).isInfix.trans (List.suffix_append _ _).isInfix))

section Header

variable {callee id : Text} {dependencies : List Text}
  (hlistable : ∀ text ∈ id :: dependencies, Listable text)

include hlistable

theorem line_not_mem_listing : '\n' ∉ listing id dependencies := by
  intro hmem
  have hword : ['\n'] <:+: listing id dependencies ++ [] := by
    obtain ⟨front, back, heq⟩ := List.append_of_mem hmem
    exact ⟨front, back, by rw [heq]; simp⟩
  have hunmarked : Unmarked ['\n'] := by constructor <;> decide
  rcases hunmarked.infix_listing_append hword with ⟨text, htext, hfound⟩ | hnil
  · exact (hlistable text htext).line_not_mem (hfound.subset List.mem_cons_self)
  · exact absurd hnil (by decide)

/-- A header has no closing mark of a comment. -/
theorem no_mark_header (hcallee : ∀ c ∈ callee, Config.isCalleeCharacter c = true) :
    ¬ ['*', '/'] <:+: header callee id dependencies := by
  intro hmark
  rw [header_eq] at hmark
  rcases infix_or_infix_of_append_cons (by decide) hmark with hname | hbehind
  · exact absurd (hcallee '*' (hname.subset List.mem_cons_self)) (by decide)
  · have hunmarked : Unmarked ['*', '/'] := by constructor <;> decide
    rcases hunmarked.infix_listing_append hbehind with ⟨text, htext, hfound⟩ | hkeyword
    · exact (hlistable text htext).no_mark hfound
    · exact absurd hkeyword (by decide)

theorem verbatim_listing : Verbatim (listing id dependencies) := by
  have hquoted : ∀ text ∈ id :: dependencies, Verbatim ('"' :: text ++ ['"']) := fun text hmem =>
    verbatim_quoted rfl (hlistable text hmem).quote_not_mem (hlistable text hmem).escape_not_mem
      (hlistable text hmem).line_not_mem
  obtain ⟨hid, hdependencies⟩ := List.forall_mem_cons.1 hquoted
  have hopening : Verbatim ", [" := verbatim_of_plain (List.all_iff_forall_prop.1 (by decide))
  have hclosing : Verbatim "], " := verbatim_of_plain (List.all_iff_forall_prop.1 (by decide))
  have hjoined : Verbatim
      (Text.joined ", " (dependencies.map fun dependency => '"' :: dependency ++ ['"'])) := by
    have hseparator : Verbatim ", " := verbatim_of_plain (List.all_iff_forall_prop.1 (by decide))
    refine verbatim_joined hseparator fun text hmem => ?_
    obtain ⟨dependency, hdependency, rfl⟩ := List.mem_map.1 hmem
    exact hdependencies dependency hdependency
  have hlisting := ((hid.append hopening).append hjoined).append hclosing
  have hregroup : listing id dependencies = '"' :: id ++ ['"'] ++ (", [" : Text)
      ++ Text.joined ", " (dependencies.map fun dependency => '"' :: dependency ++ ['"'])
      ++ ("], " : Text) := by
    simp [listing]
  rw [hregroup]
  exact hlisting

/-- A header is shown as it is written. -/
theorem verbatim_header (hcallee : ∀ c ∈ callee, Config.isCalleeCharacter c = true) :
    Verbatim (header callee id dependencies) := by
  have hname : Verbatim callee := verbatim_of_plain fun c hc =>
    ⟨Config.isQuote_of_isCalleeCharacter (hcallee c hc),
      Config.ne_of_isCalleeCharacter (hcallee c hc) (by decide)⟩
  have hopening : Verbatim ['('] := verbatim_of_plain (List.all_iff_forall_prop.1 (by decide))
  have hkeyword : Verbatim "function" := verbatim_of_plain (List.all_iff_forall_prop.1 (by decide))
  rw [header_eq]
  exact hname.append (hopening.append ((verbatim_listing hlistable).append hkeyword))

omit hlistable in
theorem byteLength_header : Text.byteLength (header callee id dependencies) =
    Text.byteLength callee + 1 + Text.byteLength (listing id dependencies) + 8 := by
  have hparenthesis : Text.byteLength ('(' :: (listing id dependencies ++ ("function" : Text))) =
      1 + (Text.byteLength (listing id dependencies) + 8) := by
    rw [Text.byteLength, Text.byteLength_append]
    rfl
  rw [header_eq, Text.byteLength_append, hparenthesis]
  omega

omit hlistable in
theorem freeBehind_listing (offset : Nat) :
    freeBehind true (placed offset (listing id dependencies)) = true := by
  obtain ⟨front, hfront⟩ : ∃ front, listing id dependencies = front ++ [' '] :=
    ⟨_, (List.append_assoc _ ("],") [' ']).symm⟩
  rw [hfront, placed_append, freeBehind_append]
  rfl

omit hlistable in
/-- Behind the callee and the parenthesis, the keyword is looked for. -/
theorem headerEnd?_placed_header (offset : Nat) (rest : List Cell) :
    headerEnd? callee (placed offset (header callee id dependencies) ++ rest) =
      throughKeyword? (placed (offset + Text.byteLength callee + 1) (listing id dependencies) ++
        (placed (offset + Text.byteLength callee + 1 + Text.byteLength (listing id dependencies))
          "function" ++ rest)) := by
  have hparenthesis : isBlank '(' = false := by decide
  rw [header_eq, placed_append, placed_cons, placed_append, List.append_assoc, headerEnd?,
    dropSeen?_append (map_seen_placed _ _)]
  simp only [Option.bind_eq_bind, Option.bind_some]
  rw [List.cons_append, openParenthesis?_cons, hparenthesis, if_neg Bool.false_ne_true, if_pos rfl,
    List.append_assoc]
  rfl

omit hlistable in
theorem throughKeyword?_placed (offset : Nat) (rest : List Cell) :
    throughKeyword? (placed offset "function" ++ rest) = some (offset + 8) := by
  have hhere : ("function" : Text) <+: (placed offset "function" ++ rest).map Cell.seen := by
    rw [List.map_append, map_seen_placed]
    exact List.prefix_append _ _
  exact (throughKeyword?_cons _ _).trans (if_pos hhere)

/-- A declaring header is found where it stands. It ends in its own keyword, unless a text in its
list has the keyword. -/
theorem exists_headerEnd?_header (offset : Nat) (rest : List Cell) :
    ∃ stop, headerEnd? callee (placed offset (header callee id dependencies) ++ rest) = some stop ∧
      (stop = offset + Text.byteLength (header callee id dependencies) ↔
        ∀ text ∈ id :: dependencies, ¬ ("function" : Text) <:+: text) := by
  rw [headerEnd?_placed_header, throughKeyword?_append (freeBehind_listing _), byteLength_header]
  generalize hbehind : offset + Text.byteLength callee + 1 = behind
  rw [map_seen_placed]
  have hline := line_not_mem_listing hlistable
  by_cases hlisted : ("function" : Text) <:+: listing id dependencies
  · -- the search stops in the list
    obtain ⟨text, hmem, htext⟩ : ∃ text ∈ id :: dependencies, ("function" : Text) <:+: text := by
      rw [← List.append_nil (listing id dependencies)] at hlisted
      rcases unmarked_keyword.infix_listing_append hlisted with hfound | hnil
      · exact hfound
      · exact absurd hnil (by decide)
    have hsome : (throughKeyword? (placed behind (listing id dependencies) ++ [])).isSome = true :=
      isSome_throughKeyword? (by rwa [map_seen_placed]) (by rwa [map_seen_placed]) []
    rw [List.append_nil] at hsome
    obtain ⟨stop, hstop⟩ := Option.isSome_iff_exists.1 hsome
    obtain ⟨passed, after, hcells, -, hbytes⟩ := exists_of_throughKeyword? hstop
    have haligned : Aligned behind (placed behind (listing id dependencies)) :=
      (shows_plain _).aligned behind
    have hlength := congrArg (fun cells => Text.byteLength (cells.flatMap Cell.written)) hcells
    simp only [flatMap_written_placed, List.flatMap_append, Text.byteLength_append] at hlength
    have hle := hbytes behind [] haligned
    rw [List.nil_append] at hle
    rw [if_pos (.inr hlisted)]
    refine ⟨stop, hstop, iff_of_false (by omega) fun hnone => hnone text hmem htext⟩
  · -- otherwise it goes on behind the list, where the keyword of the header stands
    rw [if_neg (not_or.2 ⟨hline, hlisted⟩), throughKeyword?_placed]
    refine ⟨_, rfl, iff_of_true (by omega) fun text hmem htext => hlisted ?_⟩
    exact htext.trans (infix_listing hmem)

end Header

/-! ## Replacing a header -/

section Replacing

variable {callee before old new rest : Text} {stop : Nat}

/-- What is found is what is replaced. -/
theorem replaceHeader_of_headerSpan? (h : headerSpan? callee (before ++ old ++ rest) =
    some (Text.byteLength before, Text.byteLength (before ++ old))) (new : Text) :
    replaceHeader callee (before ++ old ++ rest) new = before ++ new ++ rest := by
  rw [replaceHeader, h]
  exact splice_singleton before old rest new

/-- A text is written over itself where the first header is that text. -/
theorem replaceHeader_eq_self_iff (hname : IsCallee callee)
    (h : headerSpan? callee (before ++ new ++ rest) = some (Text.byteLength before, stop)) :
    replaceHeader callee (before ++ new ++ rest) new = before ++ new ++ rest ↔
      stop = Text.byteLength (before ++ new) := by
  constructor
  · intro hsame
    obtain ⟨front, old, behind, hsource, hstart, rfl⟩ := exists_of_headerSpan? hname h
    rw [List.append_assoc, List.append_assoc] at hsource
    obtain ⟨rfl, hbehind⟩ := Text.append_inj_of_byteLength_eq hsource hstart
    rw [List.append_assoc, hbehind, ← List.append_assoc] at h hsame
    rw [replaceHeader_of_headerSpan? h, List.append_assoc, List.append_assoc] at hsame
    rw [List.append_cancel_right (List.append_cancel_left hsame)]
  · rintro rfl
    exact replaceHeader_of_headerSpan? h new

variable {id : Text} {dependencies : List Text}

/-- A closing mark of a comment behind a declaring header was behind the old one. -/
theorem infix_of_infix_header_append (hname : IsCallee callee)
    (hlistable : ∀ text ∈ id :: dependencies, Listable text) {behind : Text}
    (h : ['*', '/'] <:+: header callee id dependencies ++ behind) : ['*', '/'] <:+: behind := by
  obtain ⟨front, hfront⟩ : ∃ front, header callee id dependencies = front ++ ['n'] :=
    ⟨_, (List.append_assoc _ ("], functio" : Text) ['n']).symm⟩
  have hnone := no_mark_header hlistable hname.identifier
  rw [hfront, ← List.append_cons] at h
  rcases infix_or_infix_of_append_cons (by decide) h with hheader | hbehind
  · rw [hfront] at hnone
    exact absurd (hheader.trans (List.prefix_append _ _).isInfix) hnone
  · exact hbehind

/-- The text of a header that is found at the bytes of a text is that text. -/
theorem Located.text_eq {front others after : List Cell} {first : Cell} (hname : IsCallee callee)
    (h : Located callee (before ++ old ++ rest) stop front first others after)
    (hstart : first.offset = Text.byteLength before)
    (hstop : stop = Text.byteLength (before ++ old)) :
    front.flatMap Cell.written = before ∧ (first :: others).flatMap Cell.written = old := by
  have hsource := h.source_eq
  obtain ⟨hheader, -⟩ := Text.append_inj_of_byteLength_eq hsource
    (by rw [← hstop, h.stop_eq, List.flatMap_append])
  obtain ⟨hfront, hold⟩ := Text.append_inj_of_byteLength_eq hheader
    (hstart.symm.trans (h.first_eq hname).1)
  exact ⟨hfront.symm, hold.symm⟩

/-- A declaring header starts as the first header does. -/
theorem Located.exists_header_eq {source : Text} {front others after : List Cell} {first : Cell}
    (hname : IsCallee callee) (h : Located callee source stop front first others after) (id : Text)
    (dependencies : List Text) : ∃ new, header callee id dependencies = first.seen :: new := by
  obtain ⟨c, name, rfl⟩ := List.exists_cons_of_ne_nil hname.nonempty
  have hseen := h.starts_with_callee
  rw [List.map_cons, List.cons_prefix_cons] at hseen
  rw [← hseen.1]
  exact ⟨_, rfl⟩

/-- A declaring header in the place of the first header has its cells there. -/
theorem Located.exists_cells_header {front others after : List Cell} {first : Cell}
    (hname : IsCallee callee) (hlistable : ∀ text ∈ id :: dependencies, Listable text)
    (h : Located callee (before ++ old ++ rest) stop front first others after)
    (hfront : front.flatMap Cell.written = before)
    (hold : (first :: others).flatMap Cell.written = old)
    (hbefore : Detached (old ++ rest) before) :
    ∃ more, cells (before ++ header callee id dependencies ++ rest) =
      front ++ (placed first.offset (header callee id dependencies) ++ more) := by
  have hwritten := (h.first_eq hname).2
  have hcharacter := h.isCalleeCharacter_seen hname
  -- both headers start with the same character
  obtain ⟨text, rfl⟩ : ∃ text, old = first.seen :: text := by
    rw [← hold, List.flatMap_cons, hwritten]
    exact ⟨_, rfl⟩
  obtain ⟨new, hnew⟩ := h.exists_header_eq hname id dependencies
  have hmark : ['*', '/'] <:+: new ++ rest → ['*', '/'] <:+: text ++ rest := by
    intro hclosed
    have hheader : ['*', '/'] <:+: header callee id dependencies ++ rest := by
      rw [hnew, List.cons_append]
      exact hclosed.trans (List.suffix_cons _ _).isInfix
    exact (infix_of_infix_header_append hname hlistable hheader).trans
      (List.suffix_append text rest).isInfix
  have hsource := h.cells_eq
  rw [List.append_assoc, List.cons_append] at hsource
  have hcells := hbefore.cells_eq hcharacter hmark hsource hfront (by rw [hwritten]; simp)
  rw [← List.cons_append, ← hnew, verbatim_header hlistable hname.identifier,
    place_append] at hcells
  rw [List.append_assoc]
  exact ⟨_, hcells⟩

/-- A declaring header in the place of the first header is the first header. It ends in its own
keyword, unless a text in its list has the keyword. -/
theorem exists_headerSpan?_header (hname : IsCallee callee)
    (hlistable : ∀ text ∈ id :: dependencies, Listable text)
    (hspan : headerSpan? callee (before ++ old ++ rest) =
      some (Text.byteLength before, Text.byteLength (before ++ old)))
    (hline : '\n' ∉ old) (hbefore : Detached (old ++ rest) before) :
    ∃ stop, headerSpan? callee (before ++ header callee id dependencies ++ rest) =
        some (Text.byteLength before, stop) ∧
      (stop = Text.byteLength (before ++ header callee id dependencies) ↔
        ∀ text ∈ id :: dependencies, ¬ ("function" : Text) <:+: text) := by
  obtain ⟨front, first, others, after, hlocated, hstart⟩ := exists_located hname hspan
  obtain ⟨hfront, hold⟩ := hlocated.text_eq hname hstart.symm rfl
  obtain ⟨more, hcells⟩ := hlocated.exists_cells_header hname hlistable hfront hold hbefore
  obtain ⟨stop, hend, hiff⟩ := exists_headerEnd?_header hlistable first.offset more
  refine ⟨stop, ?_, by rw [Text.byteLength_append, hstart, hiff]⟩
  -- the new header starts with the cell that the old one started with
  obtain ⟨new, hplaced⟩ : ∃ new, placed first.offset (header callee id dependencies) ++ more =
      first :: new := by
    obtain ⟨new, hnew⟩ := hlocated.exists_header_eq hname id dependencies
    rw [hnew, placed_cons, ← (hlocated.first_eq hname).2]
    exact ⟨_, rfl⟩
  have hcharacter := hlocated.isCalleeCharacter_seen hname
  rw [hplaced] at hcells hend
  rw [← hold] at hline
  have hdeclares := hlocated.declares.replaced
    hname.isBoundary_eq_false rfl
    (Config.isBlank_of_isCalleeCharacter hcharacter)
    (Config.ne_of_isCalleeCharacter hcharacter (by decide))
    (hlocated.isSome_throughKeyword? hline) hend
  rw [headerSpan?, hcells, hstart]
  exact hdeclares.headerFrom?_eq

end Replacing

/-- The first header of a source stands on one line, and the lexemes in front of it end where it
starts. -/
def HeaderApart (callee source : Text) : Prop :=
  ∀ before header rest, source = before ++ header ++ rest →
    headerSpan? callee source =
      some (Text.byteLength before, Text.byteLength (before ++ header)) →
    '\n' ∉ header ∧ Detached (header ++ rest) before

/-- It is enough to look at the first header where it is found. -/
theorem headerApart_append {callee before header rest : Text}
    (hspan : headerSpan? callee (before ++ header ++ rest) =
      some (Text.byteLength before, Text.byteLength (before ++ header)))
    (hline : '\n' ∉ header) (hbefore : Detached (header ++ rest) before) :
    HeaderApart callee (before ++ header ++ rest) := by
  intro front found behind hsource hfound
  rw [hspan, Option.some.injEq, Prod.mk.injEq] at hfound
  obtain ⟨hcut, rfl⟩ := Text.append_inj_of_byteLength_eq hsource hfound.2
  obtain ⟨rfl, rfl⟩ := Text.append_inj_of_byteLength_eq hcut hfound.1
  exact ⟨hline, hbefore⟩

/-- Declaring a module again changes nothing, exactly if no text in the list of its header has the
keyword. -/
theorem replaceHeader_replaceHeader_iff {callee source id : Text} {dependencies : List Text}
    (hname : IsCallee callee) (hlistable : ∀ text ∈ id :: dependencies, Listable text)
    (hsource : HeaderApart callee source) :
    replaceHeader callee (replaceHeader callee source (header callee id dependencies))
        (header callee id dependencies) =
      replaceHeader callee source (header callee id dependencies) ↔
    (headerSpan? callee source ≠ none →
      ∀ text ∈ id :: dependencies, ¬ ("function" : Text) <:+: text) := by
  rcases hspan : headerSpan? callee source with _ | ⟨start, stop⟩
  · have hnone : ∀ new, replaceHeader callee source new = source := by
      intro new
      rw [replaceHeader, hspan]
    simp [hnone]
  · obtain ⟨before, old, rest, rfl, rfl, rfl⟩ := exists_of_headerSpan? hname hspan
    obtain ⟨hline, hbefore⟩ := hsource before old rest rfl hspan
    obtain ⟨stop, hstop, hiff⟩ := exists_headerSpan?_header hname hlistable hspan hline hbefore
    rw [replaceHeader_of_headerSpan? hspan, replaceHeader_eq_self_iff hname hstop, hiff]
    simp

end ModuleCompiler.Script
