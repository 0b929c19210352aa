import ModuleCompiler.Proofs.Script.Sight

/-!
# The masked source read again

Blanking a comment could set free what it holds back: a quote in front of it might now be closed by
one behind it, or a slash start a comment. It does not. A line comment leaves the line break behind
it, so no string goes on through it, and a block comment ends in a slash, so a search for a quote
that came to an end neither in it nor behind it does not do so behind spaces either. So the masked
source has the lexemes of the source with blanks for its comments, it is masked already, and the
scan finds the ids in it at the same places.

Strings are the hard part: `closeQuote?_mask` says that a quote which is not closed in the source is
not closed in the masked source. With it, a lexeme other than a comment is read in front of the
masked source as in front of the source (`Reads.mask`), and `mask_mask` follows lexeme by lexeme.
The bytes are a separate matter, and are counted lexeme by lexeme as well (`bytes_mask`).
-/

namespace ModuleCompiler

/-! ## Bytes -/

namespace Text

/-- The bytes of a text in UTF-8. -/
def bytes (text : Text) : List UInt8 :=
  text.flatMap String.utf8EncodeChar

/-- The byte of a line break is in no other character. -/
theorem line_not_mem_utf8EncodeChar {c : Char} (h : c ≠ '\n') : 10 ∉ String.utf8EncodeChar c := by
  have hcode : c.val.toNat ≠ 10 := fun heq => h (Char.ext (UInt32.toNat_inj.1 heq))
  have hbytes : ∀ byte ∈ String.utf8EncodeChar c,
      ∃ code : Nat, byte = UInt8.ofNat code ∧ code < 256 ∧ code ≠ 10 := by
    -- the bytes of a character that takes several start at 128
    unfold String.utf8EncodeChar
    dsimp only
    split_ifs <;> simp only [List.forall_mem_cons, List.not_mem_nil, false_implies, implies_true,
      and_true]
    · exact ⟨_, rfl, by omega, by omega⟩
    · exact ⟨⟨_, rfl, by omega, by omega⟩, _, rfl, by omega, by omega⟩
    · exact ⟨⟨_, rfl, by omega, by omega⟩, ⟨_, rfl, by omega, by omega⟩, _, rfl, by omega, by omega⟩
    · exact ⟨⟨_, rfl, by omega, by omega⟩, ⟨_, rfl, by omega, by omega⟩,
        ⟨_, rfl, by omega, by omega⟩, _, rfl, by omega, by omega⟩
  intro hmem
  obtain ⟨code, hbyte, hlt, hne⟩ := hbytes 10 hmem
  have htoNat := congrArg UInt8.toNat hbyte
  rw [UInt8.toNat_ofNat', Nat.mod_eq_of_lt hlt] at htoNat
  exact hne htoNat.symm

end Text

namespace Script

variable {quote : Char} {lexeme : Lexeme} {text piece after : Text}

/-! ## The masked source, lexeme by lexeme -/

/-- What is seen of a lexeme in the masked source. -/
def Lexeme.seen (lexeme : Lexeme) : Text :=
  lexeme.shown.map Prod.fst

/-- Comment text with a space for each byte of a character that breaks no line. -/
def blanks (text : Text) : Text :=
  (text.flatMap blanked).map Prod.fst

theorem mask_eq_map_view (source : Text) : mask source = (view source).map Prod.fst :=
  map_seen_place 0 _

theorem Reads.mask_eq (h : Reads lexeme after) :
    mask (lexeme.text ++ after) = lexeme.seen ++ mask after := by
  rw [mask_eq_map_view, h.view_eq, List.map_append, ← mask_eq_map_view, Lexeme.seen]

@[simp] theorem seen_comment (text : Text) : (Lexeme.comment text).seen = blanks text := rfl

@[simp] theorem seen_plain (c : Char) : (Lexeme.plain c).seen = [c] := rfl

@[simp] theorem seen_quoted (text : Text) : (Lexeme.quoted text).seen = text :=
  map_fst_asWritten text

theorem map_fst_blanked {c : Char} (h : c ≠ '\n') :
    (blanked c).map Prod.fst = List.replicate c.utf8Size ' ' := by
  rw [blanked, if_neg h, List.map_cons, List.map_replicate, ← List.replicate_succ,
    Nat.sub_add_cancel c.utf8Size_pos]

theorem blanks_cons (c : Char) (rest : Text) :
    blanks (c :: rest) = (blanked c).map Prod.fst ++ blanks rest := by
  rw [blanks, List.flatMap_cons, List.map_append, ← blanks]

theorem mem_blanks {c : Char} (h : c ∈ blanks text) : c = ' ' ∨ c = '\n' := by
  obtain ⟨shown, hshown, rfl⟩ := List.mem_map.1 h
  obtain ⟨written, -, hblanked⟩ := List.mem_flatMap.1 hshown
  rcases mem_blanked hblanked with rfl | ⟨hspace, -⟩
  · exact .inr rfl
  · exact .inl hspace

theorem line_mem_blanks_iff : '\n' ∈ blanks text ↔ '\n' ∈ text := by
  induction text with
  | nil => rfl
  | cons c rest ih =>
    rw [blanks_cons, List.mem_append, ih, List.mem_cons]
    refine or_congr_left ?_
    by_cases hline : c = '\n'
    · simp [hline, blanked]
    · rw [map_fst_blanked hline]
      simp [Ne.symm hline]

/-! ## Closing quotes in the masked source -/

theorem closeQuote?_escape (hquote : isQuote quote = true) (rest : Text) :
    closeQuote? quote ('\\' :: rest) = none ↔ closeQuote? quote rest.tail = none := by
  have hescape : '\\' ≠ quote := (ne_of_isQuote hquote rfl).symm
  cases rest <;> simp [closeQuote?, hescape]

theorem passes_spaces (hquote : isQuote quote = true) (h : ∀ c ∈ piece, c = ' ') :
    Passes quote piece := by
  have hnot : ∀ c, c ≠ ' ' → c ∉ piece := fun c hne hmem => hne (h c hmem)
  exact passes_of_not_mem (hnot quote (ne_of_isQuote hquote rfl)) (hnot '\\' (by decide))
    (hnot '\n' (by decide))

/-- No string goes through a line break that is seen in a comment. -/
theorem closeQuote?_blanks_append (hquote : isQuote quote = true) (hline : '\n' ∈ text)
    (rest : Text) : closeQuote? quote (blanks text ++ rest) = none := by
  obtain ⟨front, back, heq, hfront⟩ :=
    List.eq_append_cons_of_mem (line_mem_blanks_iff.2 hline)
  have hspace : ∀ c ∈ front, c = ' ' := by
    intro c hmem
    have hblank : c ∈ blanks text := by
      rw [heq]
      exact List.mem_append_left _ hmem
    exact (mem_blanks hblank).resolve_right (ne_of_mem_of_not_mem hmem hfront)
  rw [heq, List.append_assoc, passes_spaces hquote hspace, List.cons_append,
    closeQuote?_line hquote, Option.map_none]

theorem passes_blanks (hquote : isQuote quote = true) (hline : '\n' ∉ text) :
    Passes quote (blanks text) :=
  passes_spaces hquote fun _ hmem =>
    (mem_blanks hmem).resolve_right (ne_of_mem_of_not_mem hmem (mt line_mem_blanks_iff.1 hline))

/-- A search that finds nothing finds nothing behind a piece without line breaks either, if the
piece does not end in a backslash. -/
theorem closeQuote?_eq_none_of_append (hline : '\n' ∉ piece) (hend : piece.getLast? ≠ some '\\')
    (h : closeQuote? quote (piece ++ after) = none) : closeQuote? quote after = none := by
  -- On the search in the piece, with the cases of the search: it comes to the end of the piece
  -- without a quote, since otherwise it would have found one.
  fun_induction closeQuote? quote piece with
  | case1 => exact h
  | case2 => simp [closeQuote?_self] at h
  | case3 c hc =>
    have hescape : c ≠ '\\' := by simpa using hend
    have hnewline : c ≠ '\n' := (List.ne_of_not_mem_cons hline).symm
    rw [List.singleton_append, closeQuote?_cons hc hescape hnewline] at h
    exact Option.map_eq_none_iff.1 h
  | case4 => simp [closeQuote?_self] at h
  | case5 next rest hescape ih =>
    rw [List.cons_append, List.cons_append, closeQuote?, if_neg hescape, if_pos rfl,
      Option.map_eq_none_iff] at h
    exact ih (fun hmem => hline (by simp [hmem]))
      (getLast?_ne_of_append ['\\', next] hend) h
  | case6 => exact absurd List.mem_cons_self hline
  | case7 c next rest hc hescape hnewline ih =>
    rw [List.cons_append, closeQuote?_cons hc hescape hnewline, Option.map_eq_none_iff] at h
    exact ih (List.not_mem_of_not_mem_cons hline) (getLast?_ne_of_append [c] hend) h

theorem exists_concat_of_closeBlock? {body : Text} (h : closeBlock? text = some body) :
    ∃ inner, body = inner ++ ['/'] := by
  fun_induction closeBlock? text generalizing body with
  | case1 => simp at h
  | case2 => simp at h
  | case3 c next _ hmark =>
    rw [hmark.2] at h
    exact ⟨[c], (Option.some.inj h).symm⟩
  | case4 c next rest _ ih =>
    obtain ⟨behind, hbehind, rfl⟩ := Option.map_eq_some_iff.1 h
    obtain ⟨inner, rfl⟩ := ih hbehind
    exact ⟨c :: inner, rfl⟩

/-- A comment that is blanked lets no string through that did not go through the comment. -/
theorem Reads.closeQuote?_blanks (h : Reads (.comment text) after) (hquote : isQuote quote = true)
    (hpiece : piece <:+ text) (hne : piece ≠ [])
    (hafter : closeQuote? quote after = none → closeQuote? quote (mask after) = none)
    (hnone : closeQuote? quote (piece ++ after) = none) :
    closeQuote? quote (blanks piece ++ mask after) = none := by
  by_cases hline : '\n' ∈ piece
  · exact closeQuote?_blanks_append hquote hline _
  rw [passes_blanks hquote hline, Option.map_eq_none_iff]
  -- A line comment leaves the search at a line break, a block comment behind a slash, which takes
  -- nothing behind it with it.
  cases h with
  | line line _ _ hbreak =>
    rcases after with _ | ⟨c, rest⟩
    · rfl
    · obtain rfl : c = '\n' := hbreak c rfl
      rw [mask_eq_map_view, view_cons (by decide) (by decide)]
      exact closeQuote?_line hquote _
  | block body _ hclose =>
    have hlast : piece.getLast? = some '/' := by
      obtain ⟨front, hfront⟩ := hpiece
      obtain ⟨inner, rfl⟩ := exists_concat_of_closeBlock? hclose
      rw [← List.getLast?_append_of_ne_nil front hne, hfront, ← List.cons_append,
        ← List.cons_append, List.getLast?_concat]
    refine hafter (closeQuote?_eq_none_of_append hline ?_ hnone)
    rw [hlast]
    decide

/-- A quote that is not closed in the source is not closed in the masked source. Behind a backslash
the search goes on one character later, so this is shown along with it. -/
theorem closeQuote?_mask_and_tail (hquote : isQuote quote = true) (source : Text) :
    (closeQuote? quote source = none → closeQuote? quote (mask source) = none) ∧
      (closeQuote? quote source.tail = none → closeQuote? quote (mask source).tail = none) := by
  induction source using lexeme_induction with
  | nil => exact ⟨fun _ => rfl, fun _ => rfl⟩
  | cons lexeme after hreads ih =>
    obtain ⟨hafter, htail⟩ := ih
    rw [hreads.mask_eq]
    cases lexeme with
    | quoted text =>
      obtain ⟨start, inner, last, rfl, hlast⟩ : ∃ start inner last,
          text = start :: (inner ++ [last]) ∧ isQuote last = true := by
        cases hreads with
        | quoted start body _ hstart hclose =>
          obtain ⟨inner, rfl⟩ := exists_concat_of_closeQuote? hclose
          exact ⟨start, inner, start, rfl, hstart⟩
      rw [seen_quoted]
      exact ⟨(isLocal_concat hquote hlast (start :: inner)).closeQuote?_eq_none hafter,
        (isLocal_concat hquote hlast inner).closeQuote?_eq_none hafter⟩
    | comment text =>
      -- behind a backslash the search starts at the second character of the comment
      obtain ⟨mark, rest, rfl⟩ : ∃ mark rest, text = '/' :: mark :: rest := by
        cases hreads with
        | line | block => exact ⟨_, _, rfl⟩
      refine ⟨hreads.closeQuote?_blanks hquote List.suffix_rfl (List.cons_ne_nil _ _) hafter, ?_⟩
      exact hreads.closeQuote?_blanks hquote (List.suffix_cons _ _) (List.cons_ne_nil _ _) hafter
    | plain c =>
      refine ⟨fun hnone => ?_, hafter⟩
      rw [seen_plain]
      by_cases hself : c = quote
      · rw [hself] at hnone
        simp [Lexeme.text, closeQuote?_self] at hnone
      by_cases hescape : c = '\\'
      · rw [hescape] at hnone ⊢
        exact (closeQuote?_escape hquote _).2 (htail ((closeQuote?_escape hquote _).1 hnone))
      by_cases hline : c = '\n'
      · rw [hline]
        exact closeQuote?_line hquote _
      · have hlocal : IsLocal quote [c] := .inr (.inr (passes_singleton hself hescape hline))
        exact hlocal.closeQuote?_eq_none hafter hnone

theorem closeQuote?_mask (hquote : isQuote quote = true) {source : Text}
    (h : closeQuote? quote source = none) : closeQuote? quote (mask source) = none :=
  (closeQuote?_mask_and_tail hquote source).1 h

/-! ## Masking twice -/

/-- A word without a space that is seen in the masked source stands in the source. -/
theorem isInfix_of_isInfix_mask {word source : Text} (hword : ' ' ∉ word)
    (h : word <:+: mask source) : word <:+: source := by
  obtain ⟨before, after, heq⟩ := h
  rw [mask_eq_map_view, eq_comm, List.append_assoc] at heq
  obtain ⟨front, rest, hview, -, hrest⟩ := List.map_eq_append_iff.1 heq
  obtain ⟨mid, back, rfl, rfl, -⟩ := List.map_eq_append_iff.1 hrest
  -- a character of the word is no space, so it is written as it is seen
  have hwritten : ∀ shown ∈ mid, shown.2 = [shown.1] := by
    intro shown hmem
    have hseen : shown.1 ≠ ' ' := ne_of_mem_of_not_mem (List.mem_map_of_mem hmem) hword
    have hshown : shown ∈ view source := by
      rw [hview]
      simp [hmem]
    exact (mem_view hshown).resolve_right fun hspace => hseen hspace.1
  have hmid : mid.flatMap Prod.snd = mid.map Prod.fst := by
    rw [← asWritten_flatMap_snd hwritten, flatMap_snd_asWritten, map_fst_asWritten]
  rw [← flatMap_snd_view source, hview, List.flatMap_append, List.flatMap_append, hmid]
  exact ⟨front.flatMap Prod.snd, back.flatMap Prod.snd, by simp⟩

/-- The masked source starts as the source does, or with a space. -/
theorem head?_mask {source : Text} {c : Char} (h : c ∈ (mask source).head?) :
    c ∈ source.head? ∨ c = ' ' := by
  rcases source with _ | ⟨first, rest⟩
  · simp [mask_eq_map_view] at h
  obtain ⟨lexeme, after, heq, hreads⟩ := exists_reads first rest
  rw [heq, hreads.mask_eq] at h
  cases hreads with
  | line | block =>
    right
    exact (Option.some.inj h).symm
  | quoted | unclosedQuote | unclosedBlock | slash | other =>
    left
    rw [heq]
    exact h

/-- A lexeme other than a comment is read in front of the masked source as in front of the
source. -/
theorem Reads.mask (h : Reads lexeme after) (hplain : ∀ text, lexeme ≠ .comment text) :
    Reads lexeme (mask after) := by
  cases h with
  | quoted quote body _ hquote h =>
    exact .quoted quote body _ hquote (closeQuote?_of_append hquote h _)
  | line | block => exact absurd rfl (hplain _)
  | unclosedQuote quote _ hquote h =>
    exact .unclosedQuote quote _ hquote (closeQuote?_mask hquote h)
  | unclosedBlock block h =>
    have hmask : Script.mask ('*' :: block) = '*' :: Script.mask block := by
      rw [mask_eq_map_view, view_cons (by decide) (by decide), List.map_cons, ← mask_eq_map_view]
    rw [hmask]
    rw [closeBlock?_eq_none_iff] at h
    exact .unclosedBlock _
      (closeBlock?_eq_none_iff.2 (mt (isInfix_of_isInfix_mask (by decide)) h))
  | slash _ hnext =>
    refine .slash _ fun c hc => ?_
    rcases head?_mask hc with hsame | rfl
    · exact hnext c hsame
    · decide
  | other c _ hquote hslash => exact .other c _ hquote hslash

/-- Masking the masked source changes nothing. -/
theorem mask_mask (source : Text) : mask (mask source) = mask source := by
  induction source using lexeme_induction with
  | nil => rfl
  | cons lexeme after hreads ih =>
    rw [hreads.mask_eq]
    -- A comment is now blanks, which are shown as they are; any other lexeme is read again.
    by_cases hcomment : ∃ text, lexeme = .comment text
    · obtain ⟨text, rfl⟩ := hcomment
      have hverbatim : Verbatim (blanks text) := by
        refine verbatim_of_plain fun c hmem => ?_
        rcases mem_blanks hmem with rfl | rfl <;> decide
      rw [seen_comment, mask_eq_map_view, hverbatim, List.map_append, map_fst_asWritten,
        ← mask_eq_map_view, ih]
    · have hread := hreads.mask fun text heq => hcomment ⟨text, heq⟩
      have hseen : lexeme.seen = lexeme.text := by
        cases lexeme with
        | comment text => exact absurd ⟨text, rfl⟩ hcomment
        | quoted text => exact seen_quoted text
        | plain c => rfl
      rw [hseen, hread.mask_eq, hseen, ih]

/-! ## Bytes of the masked source -/

/-- A space in the place of a byte, unless the byte is a line break. -/
def blankedByte (byte : UInt8) : UInt8 :=
  if byte = 10 then 10 else 32

/-- The bytes that the masked source has in the place of a lexeme. -/
def Lexeme.maskedBytes : Lexeme → List UInt8
  | comment text => (Text.bytes text).map blankedByte
  | quoted text => Text.bytes text
  | plain c => Text.bytes [c]

theorem bytes_map_fst_blanked (c : Char) :
    Text.bytes ((blanked c).map Prod.fst) = (String.utf8EncodeChar c).map blankedByte := by
  by_cases hline : c = '\n'
  · rw [hline]
    decide
  · have hspace : ∀ byte ∈ String.utf8EncodeChar c, blankedByte byte = 32 := fun byte hmem =>
      if_neg (ne_of_mem_of_not_mem hmem (Text.line_not_mem_utf8EncodeChar hline))
    rw [map_fst_blanked hline, List.map_congr_left hspace, List.map_const',
      String.length_utf8EncodeChar, Text.bytes]
    induction c.utf8Size with
    | zero => rfl
    | succ size ih => rw [List.replicate_succ, List.flatMap_cons, ih]; rfl

theorem bytes_seen (lexeme : Lexeme) : Text.bytes lexeme.seen = lexeme.maskedBytes := by
  cases lexeme with
  | quoted text => rw [seen_quoted, Lexeme.maskedBytes]
  | plain c => rfl
  | comment text =>
    rw [seen_comment, Lexeme.maskedBytes, Text.bytes, Text.bytes, blanks, List.flatMap_map,
      List.flatMap_assoc, List.map_flatMap]
    refine List.flatMap_congr fun c _ => ?_
    rw [← bytes_map_fst_blanked, Text.bytes, List.flatMap_map]

/-- The masked source has the bytes of the source, with a space for each byte of a comment that is
no line break. -/
theorem bytes_mask (source : Text) :
    Text.bytes (mask source) = (lexemes source).flatMap Lexeme.maskedBytes := by
  rw [mask_eq_map_view, view, List.map_flatMap, Text.bytes, List.flatMap_assoc]
  exact List.flatMap_congr fun lexeme _ => bytes_seen lexeme

theorem bytes_eq_flatMap_lexemes (source : Text) :
    Text.bytes source = (lexemes source).flatMap fun lexeme => Text.bytes lexeme.text := by
  conv_lhs => rw [← flatMap_text_lexemes source]
  exact List.flatMap_assoc

/-- The line breaks of the masked source are those of the source. -/
theorem map_line_bytes_mask (source : Text) :
    (Text.bytes (mask source)).map (· == 10) = (Text.bytes source).map (· == 10) := by
  rw [bytes_mask, bytes_eq_flatMap_lexemes, List.map_flatMap, List.map_flatMap]
  refine List.flatMap_congr fun lexeme _ => ?_
  cases lexeme with
  | quoted text | plain c => rfl
  | comment text =>
    rw [Lexeme.maskedBytes, List.map_map]
    refine List.map_congr_left fun byte _ => ?_
    by_cases hline : byte = 10
    · rw [hline]
      rfl
    · simp [blankedByte, hline]

/-- The masked source has as many bytes as the source. Outside of the comments that the rules of
lexemes give they are the bytes of the source, in comments the line breaks and spaces for all
others, and so a line break is at an offset of the masked source where one is in the source. Masking
the masked source changes nothing, and the scan finds ids in it at the places where it finds them in
the source. -/
theorem mask_keeps_offsets (source : Text) :
    Lexed (lexemes source) source ∧
      Text.bytes source = (lexemes source).flatMap (fun lexeme => Text.bytes lexeme.text) ∧
      Text.bytes (mask source) = (lexemes source).flatMap Lexeme.maskedBytes ∧
      (Text.bytes (mask source)).length = (Text.bytes source).length ∧
      (∀ offset : Nat, (Text.bytes (mask source))[offset]? = some 10 ↔
        (Text.bytes source)[offset]? = some 10) ∧
      mask (mask source) = mask source ∧
      (scan (mask source)).map IdSpan.place = (scan source).map IdSpan.place := by
  have hlines := map_line_bytes_mask source
  refine ⟨lexed_iff.2 rfl, bytes_eq_flatMap_lexemes source, bytes_mask source, ?_,
    fun offset => ?_, mask_mask source, map_place_scan (mask_mask source)⟩
  · simpa using congrArg List.length hlines
  · have hbyte : ∀ bytes : List UInt8,
        bytes[offset]? = some 10 ↔ (bytes.map (· == 10))[offset]? = some true := by
      intro bytes
      rw [List.getElem?_map, Option.map_eq_some_iff]
      simp
    rw [hbyte, hbyte, hlines]

end Script

end ModuleCompiler
