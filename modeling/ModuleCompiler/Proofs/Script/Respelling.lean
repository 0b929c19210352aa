import Mathlib.Data.List.Infix
import ModuleCompiler.Proofs.Script.Lexing

/-!
# Ids spelled in another way

Putting another text between two quotes that are seen could change the lexemes anywhere, in front of
it as well: a quote may be closed that was not, or a comment. It does not when the old text has no
backslash, and the new one neither quotes, backslashes, line breaks nor comment marks (`Quotable`).

A lexeme is then read as before in three places: in front of both quotes (`Reads.respell`), up to
the first one (`Reads.respell_behind`), and around both (`Reads.respell_inside`). Going through the
lexemes of a source, `view_respell` meets the quotes in one of these.
-/

namespace ModuleCompiler.Script

/-! ## Another text between two quotes -/

/-- A character that can stand in an id: neither a quote nor the end of an argument. -/
def IsInner (c : Char) : Prop :=
  isQuote c = false ∧ c ≠ '\n' ∧ c ≠ ')'

instance : DecidablePred IsInner :=
  fun _ => inferInstanceAs (Decidable (_ ∧ _))

/-- A text that can be written as an id, between any two quotes. -/
structure Quotable (id : Text) : Prop where
  inner : ∀ c ∈ id, IsInner c
  escape_not_mem : '\\' ∉ id
  no_mark : ∀ mark ∈ [['/', '/'], ['/', '*'], ['*', '/']], ¬ mark <:+: id

instance : DecidablePred Quotable := fun id =>
  decidable_of_iff (id.all (fun c => decide (IsInner c)) = true ∧ '\\' ∉ id ∧
      ∀ mark ∈ [['/', '/'], ['/', '*'], ['*', '/']], ¬ mark <:+: id)
    ⟨fun ⟨hinner, hescape, hmark⟩ => ⟨by simpa using hinner, hescape, hmark⟩,
      fun ⟨hinner, hescape, hmark⟩ => ⟨by simpa using hinner, hescape, hmark⟩⟩

namespace Quotable

variable {id : Text}

/-- Such a text closes no quote and has nothing that would keep one open. -/
theorem passes (h : Quotable id) {quote : Char} (hquote : isQuote quote = true) :
    Passes quote id :=
  passes_of_not_mem (fun hmem => ne_of_isQuote hquote (h.inner quote hmem).1 rfl)
    h.escape_not_mem (fun hmem => (h.inner '\n' hmem).2.1 rfl)

/-- The rest of such a text is one as well. -/
theorem of_cons {c : Char} (h : Quotable (c :: id)) : Quotable id where
  inner d hd := h.inner d (List.mem_cons_of_mem c hd)
  escape_not_mem := List.not_mem_of_not_mem_cons h.escape_not_mem
  no_mark mark hmark hmarked := h.no_mark mark hmark (hmarked.trans (List.suffix_cons c id).isInfix)

/-- An id in front of a quote is read character by character. -/
theorem view_append (h : Quotable id) {quote : Char} (hquote : isQuote quote = true)
    (rest : Text) : view (id ++ quote :: rest) = asWritten id ++ view (quote :: rest) := by
  induction id with
  | nil => rfl
  | cons c id ih =>
    have hreads : Reads (.plain c) (id ++ quote :: rest) := by
      -- a slash begins a comment only with the character behind it, which is in the id or the quote
      by_cases hslash : c = '/'
      · subst hslash
        refine .slash _ fun next hnext => ?_
        rcases id with _ | ⟨first, id⟩
        · obtain rfl : quote = next := by simpa using hnext
          exact ⟨ne_of_isQuote hquote rfl, ne_of_isQuote hquote rfl⟩
        · obtain rfl : first = next := by simpa using hnext
          constructor
          · rintro rfl
            exact h.no_mark ['/', '/'] (by simp) (List.prefix_append ['/', '/'] id).isInfix
          · rintro rfl
            exact h.no_mark ['/', '*'] (by simp) (List.prefix_append ['/', '*'] id).isInfix
      · exact .other c _ (h.inner c List.mem_cons_self).1 hslash
    have hview := hreads.view_eq
    rw [Lexeme.text, List.singleton_append] at hview
    rw [List.cons_append, hview, ih h.of_cons]
    rfl

end Quotable

/-- A word that is found around a character of its own is found on one side of it. -/
theorem infix_or_infix_of_append_cons {word front back : Text} {c : Char} (hc : c ∉ word)
    (h : word <:+: front ++ c :: back) : word <:+: front ∨ word <:+: back := by
  obtain ⟨before, after, heq⟩ := h
  rw [List.append_assoc] at heq
  rcases append_eq_append_cons heq with ⟨more, rfl, hmore⟩ | ⟨more, -, rfl⟩
  · -- the word starts in front of the character, and cannot reach it
    rcases append_eq_append_cons hmore with ⟨rest, rfl, -⟩ | ⟨rest, rfl, -⟩
    · exact .inl ⟨before, rest, by simp⟩
    · simp at hc
  · exact .inr ⟨more, after, by simp⟩

section Respell

variable {quote opening closing : Char} {old new : Text}
  (hopening : isQuote opening = true) (hclosing : isQuote closing = true)
  (hescape : '\\' ∉ old) (hline : '\n' ∉ old) (hnew : Quotable new)

include hescape hline hnew

/-- A quote that is not closed behind the old text is not closed behind the new one. -/
theorem closeQuote?_respell (hquote : isQuote quote = true) {rest : Text}
    (h : closeQuote? quote (old ++ rest) = none) : closeQuote? quote (new ++ rest) = none := by
  have hnot : quote ∉ old := fun hmem => closeQuote?_ne_none_of_mem hmem hescape hline _ h
  rw [passes_of_not_mem hnot hescape hline, Option.map_eq_none_iff] at h
  rw [hnew.passes hquote, h, Option.map_none]

/-- A quote that is closed behind the old text is closed behind the new one, at the same place. -/
theorem closeQuote?_respell_some (hquotes : ∀ c ∈ old, isQuote c = false)
    (hquote : isQuote quote = true) {rest body : Text}
    (h : closeQuote? quote (old ++ rest) = some (old ++ body)) :
    closeQuote? quote (new ++ rest) = some (new ++ body) := by
  have hnot : quote ∉ old := fun hmem => ne_of_isQuote hquote (hquotes quote hmem) rfl
  have hold : Passes quote old := passes_of_not_mem hnot hescape hline
  rw [(hnew.passes hquote).closeQuote?_eq_some_iff]
  exact hold.closeQuote?_eq_some_iff.1 h

/-- A lexeme that ends in a quote is read in front of the new text as in front of the old one. -/
theorem Reads.respell_behind {lexeme : Lexeme} {rest : Text} (h : Reads lexeme (old ++ rest))
    {shown : Char × Text} (hmem : shown ∈ lexeme.shown) (hquote : isQuote shown.1 = true) :
    Reads lexeme (new ++ rest) := by
  generalize hafter : old ++ rest = after at h
  -- only a string, or a quote that is never closed, ends in a quote
  cases h with
  | quoted quote body _ hquote h =>
    exact .quoted quote body _ hquote (closeQuote?_of_append hquote h _)
  | line line _ _ _ => exact absurd hquote (not_isQuote_of_mem_comment hmem)
  | block body _ _ => exact absurd hquote (not_isQuote_of_mem_comment hmem)
  | unclosedQuote quote _ hquote h =>
    rw [← hafter] at h
    exact .unclosedQuote quote _ hquote (closeQuote?_respell hescape hline hnew hquote h)
  | unclosedBlock block _ =>
    rw [List.mem_singleton.1 hmem] at hquote
    exact absurd hquote (by decide)
  | slash _ _ =>
    rw [List.mem_singleton.1 hmem] at hquote
    exact absurd hquote (by decide)
  | other c _ hother _ =>
    rw [List.mem_singleton.1 hmem, hother] at hquote
    exact absurd hquote Bool.false_ne_true

include hopening

/-- The same with a text and a quote in front: what is decided there does not depend on what
follows. -/
theorem closeQuote?_append_respell (hquote : isQuote quote = true) {front rest : Text}
    (h : closeQuote? quote (front ++ opening :: (old ++ rest)) = none) :
    closeQuote? quote (front ++ opening :: (new ++ rest)) = none := by
  rw [List.append_cons] at h ⊢
  exact (isLocal_concat hquote hopening front).closeQuote?_eq_none
    (closeQuote?_respell hescape hline hnew hquote) h

/-- A string stays one with the new text between two quotes inside of it. -/
theorem Reads.respell_inside (hquotes : ∀ c ∈ old, isQuote c = false) {front back after : Text}
    (h : Reads (.quoted (front ++ opening :: (old ++ closing :: back))) after) :
    Reads (.quoted (front ++ opening :: (new ++ closing :: back))) after := by
  generalize htext : front ++ opening :: (old ++ closing :: back) = text at h
  cases h with
  | quoted quote body _ hquote h =>
    -- the first quote opens the string, or stands inside of it
    rcases front with _ | ⟨c, front⟩
    · obtain ⟨rfl, rfl⟩ := List.cons.inj htext
      rw [List.append_assoc] at h
      refine .quoted opening (new ++ closing :: back) after hopening ?_
      rw [List.append_assoc]
      exact closeQuote?_respell_some hescape hline hnew hquotes hopening h
    · obtain ⟨rfl, hbody⟩ := List.cons.inj htext
      change front ++ opening :: (old ++ closing :: back) = body at hbody
      subst hbody
      refine .quoted c (front ++ opening :: (new ++ closing :: back)) after hquote ?_
      have hregroup : ∀ text : Text, front ++ opening :: (text ++ closing :: back) ++ after =
          front ++ [opening] ++ (text ++ (closing :: back ++ after)) := by simp
      rw [hregroup, List.append_cons front opening (old ++ closing :: back)] at h
      rw [hregroup, List.append_cons front opening (new ++ closing :: back)]
      rcases isLocal_concat hquote hopening front with hfails | ⟨body, hends⟩ | hpasses
      · rw [hfails] at h
        exact absurd h (by simp)
      · -- the string is longer than what stands in front of the old text
        have hstart := isPrefix_of_closeQuote? (hends [])
        rw [hends] at h
        obtain rfl := Option.some.inj h
        have hlength := hstart.length_le
        simp at hlength
      · rw [hpasses.closeQuote?_eq_some_iff] at h ⊢
        exact closeQuote?_respell_some hescape hline hnew hquotes hquote h

include hclosing

/-- In front of the first quote, the new text lets every lexeme be read as the old one does. -/
theorem Reads.respell {lexeme : Lexeme} {front back : Text}
    (h : Reads lexeme (front ++ opening :: (old ++ closing :: back))) :
    Reads lexeme (front ++ opening :: (new ++ closing :: back)) := by
  have hhead : (front ++ opening :: (new ++ closing :: back)).head? =
      (front ++ opening :: (old ++ closing :: back)).head? := by
    simp [List.head?_append]
  -- no quote is part of the mark that ends a comment
  have hfar : ∀ {c : Char}, isQuote c = true → c ∉ ['*', '/'] := by
    intro c hc hmem
    simp only [List.mem_cons, List.not_mem_nil, or_false] at hmem
    rcases hmem with rfl | rfl <;> exact absurd hc (by decide)
  -- the mark has no quotes, so it would stand in one of the parts
  have hbehind : ['*', '/'] <:+: new ++ closing :: back →
      ['*', '/'] <:+: old ++ closing :: back := by
    intro hmark
    rcases infix_or_infix_of_append_cons (hfar hclosing) hmark with hid | hback
    · exact absurd hid (hnew.no_mark ['*', '/'] (by simp))
    · exact hback.trans ⟨old ++ [closing], [], by simp⟩
  refine h.congr hhead (fun quote _ hquote hnone =>
    closeQuote?_append_respell hopening hescape hline hnew hquote hnone) fun hmark => ?_
  rcases front with _ | ⟨c, front⟩
  · exact hbehind hmark
  · rcases infix_or_infix_of_append_cons (hfar hopening) hmark with hfront | hmark
    · exact hfront.trans (List.prefix_append _ _).isInfix
    · exact (hbehind hmark).trans ⟨front ++ [opening], [], by simp⟩

end Respell

section View

variable {new : Text} {front run back : List (Char × Text)} {opening closing : Char × Text}
  (hopening : isQuote opening.1 = true) (hclosing : isQuote closing.1 = true)
  (hopened : opening.2 = [opening.1]) (hclosed : closing.2 = [closing.1])
  (hrun : ∀ shown ∈ run, IsInner shown.1) (hescape : '\\' ∉ run.flatMap Prod.snd)
  (hline : '\n' ∉ run.flatMap Prod.snd) (hnew : Quotable new)

include hopening hclosed hescape hline hnew

include hclosing hopened in
/-- The new text behind a lexeme that stands before the first quote. -/
theorem Reads.view_respell_before {lexeme : Lexeme} {after : Text} (h : Reads lexeme after)
    (hafter : view after = front ++ opening :: (run ++ closing :: back))
    (hrest : view ((front ++ opening :: (asWritten new ++ closing :: back)).flatMap Prod.snd) =
      front ++ opening :: (asWritten new ++ closing :: back)) :
    view ((lexeme.shown ++ front ++ opening :: (asWritten new ++ closing :: back)).flatMap
        Prod.snd) =
      lexeme.shown ++ front ++ opening :: (asWritten new ++ closing :: back) := by
  have hsource : after = front.flatMap Prod.snd ++ opening.1 ::
      (run.flatMap Prod.snd ++ closing.1 :: back.flatMap Prod.snd) := by
    rw [← flatMap_snd_view after, hafter]
    simp [hopened, hclosed]
  rw [hsource] at h
  have hview := (h.respell hopening hclosing hescape hline hnew).view_eq
  simp only [List.flatMap_append, List.flatMap_cons, hopened, hclosed, flatMap_snd_asWritten,
    flatMap_snd_shown, List.append_assoc, List.singleton_append] at hrest ⊢
  rw [hview, hrest]

include hrun

include hclosing in
/-- The new text behind a lexeme that ends in the first quote. -/
theorem Reads.view_respell_behind {lexeme : Lexeme} {after : Text} (h : Reads lexeme after)
    (hshown : lexeme.shown = front ++ [opening]) (hafter : view after = run ++ closing :: back) :
    view ((front ++ opening :: (asWritten new ++ closing :: back)).flatMap Prod.snd) =
      front ++ opening :: (asWritten new ++ closing :: back) := by
  have hsource : after = run.flatMap Prod.snd ++ closing.1 :: back.flatMap Prod.snd := by
    rw [← flatMap_snd_view after, hafter]
    simp [hclosed]
  have hrest := view_of_append_cons hafter (fun shown hmem => (hrun shown hmem).1) hclosing
  rw [List.flatMap_cons, hclosed, List.singleton_append] at hrest
  rw [hsource] at h
  have hmem : opening ∈ lexeme.shown := by
    rw [hshown]
    simp
  have hview := (h.respell_behind hescape hline hnew hmem hopening).view_eq
  rw [hnew.view_append hclosing, hrest, ← flatMap_snd_shown, hshown] at hview
  simpa [hclosed] using hview

include hopened in
/-- The new text inside a string. -/
theorem Reads.view_respell_inside {text after : Text} (h : Reads (.quoted text) after)
    (hshown : asWritten text = front ++ opening :: (run ++ closing :: back)) :
    view ((front ++ opening :: (asWritten new ++ closing :: back)).flatMap Prod.snd ++ after) =
      front ++ opening :: (asWritten new ++ closing :: back) ++ view after := by
  have hplain : ∀ shown ∈ front ++ opening :: (run ++ closing :: back),
      shown.2 = [shown.1] := by
    intro shown hmem
    rw [← hshown] at hmem
    exact snd_of_mem_asWritten hmem
  have htext : text = front.flatMap Prod.snd ++ opening.1 ::
      (run.flatMap Prod.snd ++ closing.1 :: back.flatMap Prod.snd) := by
    rw [← flatMap_snd_asWritten text, hshown]
    simp [hopened, hclosed]
  have hquotes : ∀ c ∈ run.flatMap Prod.snd, isQuote c = false := by
    intro c hc
    obtain ⟨shown, hmem, hwritten⟩ := List.mem_flatMap.1 hc
    rw [hplain shown (by simp [hmem]), List.mem_singleton] at hwritten
    rw [hwritten, (hrun shown hmem).1]
  rw [htext] at h
  have hview := (h.respell_inside hopening hescape hline hnew hquotes).view_eq
  -- the new string is shown as it is written
  have hrespelled : asWritten ((front ++ opening :: (asWritten new ++ closing :: back)).flatMap
      Prod.snd) = front ++ opening :: (asWritten new ++ closing :: back) := by
    refine asWritten_flatMap_snd fun shown hmem => ?_
    by_cases hmem' : shown ∈ asWritten new
    · exact snd_of_mem_asWritten hmem'
    · exact hplain shown (by
        simp only [List.mem_append, List.mem_cons] at hmem ⊢
        tauto)
  have hspelled : (front ++ opening :: (asWritten new ++ closing :: back)).flatMap Prod.snd =
      front.flatMap Prod.snd ++ opening.1 :: (new ++ closing.1 :: back.flatMap Prod.snd) := by
    simp [hopened, hclosed]
  rw [← hrespelled, hspelled, flatMap_snd_asWritten]
  exact hview

end View

/-- In a view, an id between two quotes that are seen can be spelled in another way: if what it was
has no backslash, the rest of the view stays. -/
theorem view_respell {source new : Text} {front run back : List (Char × Text)}
    {opening closing : Char × Text} (h : view source = front ++ opening :: (run ++ closing :: back))
    (hopening : isQuote opening.1 = true) (hclosing : isQuote closing.1 = true)
    (hrun : ∀ shown ∈ run, IsInner shown.1) (hescape : '\\' ∉ run.flatMap Prod.snd)
    (hnew : Quotable new) :
    view ((front ++ opening :: (asWritten new ++ closing :: back)).flatMap Prod.snd) =
      front ++ opening :: (asWritten new ++ closing :: back) := by
  have hmem : ∀ shown ∈ front ++ opening :: (run ++ closing :: back), shown ∈ view source := by
    intro shown hmem
    rwa [h]
  have hopened : opening.2 = [opening.1] := snd_eq_of_isQuote (hmem opening (by simp)) hopening
  have hclosed : closing.2 = [closing.1] := snd_eq_of_isQuote (hmem closing (by simp)) hclosing
  have hline : '\n' ∉ run.flatMap Prod.snd := by
    intro hbreak
    obtain ⟨shown, hshown, hwritten⟩ := List.mem_flatMap.1 hbreak
    have hview : shown ∈ view source := hmem shown (by simp [hshown])
    exact (hrun shown hshown).2.1 ((line_mem_iff_of_mem_view hview).1 hwritten)
  -- over the lexemes: the first one stands before the quotes, ends in the first of them, or has
  -- both inside
  clear hmem
  induction source using lexeme_induction generalizing front with
  | nil => simp at h
  | cons lexeme after hreads ih =>
    rw [hreads.view_eq] at h
    rcases append_eq_append_cons h with ⟨front, rfl, hafter⟩ | ⟨more, hshown, hmore⟩
    · exact hreads.view_respell_before hopening hclosing hopened hclosed hescape hline hnew hafter
        (ih hafter)
    rcases more with _ | ⟨first, more⟩
    · exact hreads.view_respell_behind hopening hclosing hclosed hrun hescape hline hnew hshown
        hmore.symm
    · -- the lexeme is a string, and its last quote is not in the run
      obtain ⟨text, rfl, last, hlast, hquote⟩ := hreads.exists_eq_quoted hshown hopening
      rcases append_eq_append_cons hmore.symm with ⟨rest, hrest, -⟩ | ⟨inner, hinner, hback⟩
      · have hinrun : last ∈ run := by
          rw [hrest]
          exact List.mem_append_left rest hlast
        rw [(hrun last hinrun).1] at hquote
        exact absurd hquote Bool.false_ne_true
      · rw [hinner] at hshown
        have hview := hreads.view_respell_inside hopening hopened hclosed hrun hescape hline
          hnew hshown
        rw [hback]
        simpa using hview

end ModuleCompiler.Script
