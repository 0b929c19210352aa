import ModuleCompiler.Config
import ModuleCompiler.Proofs.Path.Extension
import ModuleCompiler.Proofs.Script.Recognition
import ModuleCompiler.Script.Header

/-!
# The search for a header

Whether a header starts at a place depends on what stands behind it, up to the keyword. Neither the
callee nor the keyword reaches over a boundary, so in front of one the search can be cut in two:
what stands behind the boundary matters only where the keyword is looked for there. Each recogniser
has an equation in front of a boundary (`dropSeen?_append_of_free`, `openParenthesis?_append`,
`throughKeyword?_append`), and `headerEnd?_append` puts them together.

`Declares` has the rules of the search, which are those of `headerFrom?` (`exists_declares`,
`Declares.headerFrom?_eq`). Another header in the place of the first one is the first as well
(`Declares.replaced`), since none starts in front of it that did not before
(`headerEnd?_eq_none_of_append`). `Located` is the first header of a source with its cells, and
`exists_of_headerSpan?` its text.
-/

namespace ModuleCompiler

open Unicode

/-! ## Characters of a callee -/

namespace Config

variable {c d : Char}

theorem toNat_of_isCalleeCharacter (h : isCalleeCharacter c = true) :
    36 ≤ c.toNat ∧ c.toNat ≤ 122 := by
  simp only [isCalleeCharacter, Char.isAlphanum, Bool.or_eq_true, beq_iff_eq] at h
  rcases h with ((halpha | hdigit) | rfl) | rfl
  · have hbounds := Path.toNat_of_isAlpha halpha
    omega
  · have hbounds : 48 ≤ c.toNat ∧ c.toNat ≤ 57 := Char.isDigit_iff_toNat.1 hdigit
    omega
  · decide
  · decide

theorem ne_of_isCalleeCharacter (h : isCalleeCharacter c = true)
    (hd : isCalleeCharacter d = false) : c ≠ d := by
  rintro rfl
  rw [h] at hd
  exact Bool.noConfusion hd

theorem isBlank_of_isCalleeCharacter (h : isCalleeCharacter c = true) : isBlank c = false := by
  have hbounds := toNat_of_isCalleeCharacter h
  have hspace : c.toNat ≠ 32 := by omega
  simp [isBlank, blankRanges, Ranges.contains]
  omega

theorem isQuote_of_isCalleeCharacter (h : isCalleeCharacter c = true) :
    Script.isQuote c = false := by
  have hdouble := ne_of_isCalleeCharacter h (d := '"') (by decide)
  have hsingle := ne_of_isCalleeCharacter h (d := '\'') (by decide)
  simp [Script.isQuote, hdouble, hsingle]

theorem isBoundary_of_isCalleeCharacter (h : isCalleeCharacter c = true) :
    Script.isBoundary c = false := by
  have hbounds := toNat_of_isCalleeCharacter h
  simp only [isCalleeCharacter, Bool.or_eq_true, beq_iff_eq] at h
  rcases h with hword | rfl
  · have hascii : isWordCharacter c = true :=
      isWordCharacter_of_ascii (by omega) (by simpa using hword)
    simp [Script.isBoundary, hascii]
  · decide

end Config

/-- A name that can be called. -/
structure IsCallee (callee : Text) : Prop where
  nonempty : callee ≠ []
  identifier : ∀ c ∈ callee, Config.isCalleeCharacter c = true

theorem Config.Valid.isCallee {config : Config} (h : config.Valid) :
    IsCallee config.headerCallee :=
  ⟨h.headerCallee_nonempty, h.headerCallee_identifier⟩

theorem IsCallee.isBoundary_eq_false {callee : Text} (h : IsCallee callee) :
    ∀ c ∈ callee, Script.isBoundary c = false := fun c hc =>
  Config.isBoundary_of_isCalleeCharacter (h.identifier c hc)

namespace Script

/-! ## Recognising in front of a boundary -/

/-- Whether a callee may stand behind the cells; behind none of them it may if `free` holds. -/
def freeBehind : Bool → List Cell → Bool
  | free, [] => free
  | _, cell :: rest => freeBehind (isBoundary cell.seen) rest

theorem freeBehind_true {free : Bool} {cells : List Cell} (h : freeBehind free cells = true) :
    freeBehind true cells = true := by
  cases cells with
  | nil => rfl
  | cons cell rest => exact h

theorem freeBehind_append (free : Bool) (front rest : List Cell) :
    freeBehind free (front ++ rest) = freeBehind (freeBehind free front) rest := by
  induction front generalizing free with
  | nil => rfl
  | cons cell front ih => exact ih _

section Recognition

variable {callee pattern : Text} {front rest after : List Cell} {cell : Cell}

theorem isSome_dropSeen?_iff {cells : List Cell} :
    (dropSeen? pattern cells).isSome = true ↔ pattern <+: cells.map Cell.seen := by
  constructor
  · intro h
    obtain ⟨after, hafter⟩ := Option.isSome_iff_exists.1 h
    obtain ⟨passed, rfl, rfl⟩ := exists_of_dropSeen? hafter
    rw [List.map_append]
    exact List.prefix_append _ _
  · rintro ⟨behind, hbehind⟩
    obtain ⟨passed, after, rfl, hpassed, -⟩ := List.map_eq_append_iff.1 hbehind.symm
    rw [dropSeen?_append hpassed]
    rfl

/-- A pattern without boundaries does not reach over one. -/
theorem dropSeen?_append_of_free (hpattern : ∀ c ∈ pattern, isBoundary c = false)
    (hfree : freeBehind false front = true) (rest : List Cell) :
    dropSeen? pattern (front ++ rest) = (dropSeen? pattern front).map (· ++ rest) := by
  induction pattern generalizing front with
  | nil => rfl
  | cons c pattern ih =>
    obtain ⟨hc, hpattern⟩ := List.forall_mem_cons.1 hpattern
    cases front with
    | nil => exact absurd hfree Bool.false_ne_true
    | cons cell front =>
      rw [List.cons_append, dropSeen?, dropSeen?]
      split
      · rename_i hseen
        rw [freeBehind, hseen, hc] at hfree
        exact ih hpattern hfree
      · rfl

/-- Behind a pattern without boundaries, a callee may stand where it could. -/
theorem freeBehind_of_dropSeen? (hpattern : ∀ c ∈ pattern, isBoundary c = false)
    (hfree : freeBehind false front = true) (h : dropSeen? pattern front = some after) :
    freeBehind false after = true := by
  induction pattern generalizing front with
  | nil =>
    obtain rfl := Option.some.inj h
    exact hfree
  | cons c pattern ih =>
    obtain ⟨hc, hpattern⟩ := List.forall_mem_cons.1 hpattern
    cases front with
    | nil => simp [dropSeen?] at h
    | cons cell front =>
      rw [dropSeen?] at h
      split at h
      · rename_i hseen
        rw [freeBehind, hseen, hc] at hfree
        exact ih hpattern hfree h
      · simp at h

theorem openParenthesis?_cons (cell : Cell) (rest : List Cell) : openParenthesis? (cell :: rest) =
    if isBlank cell.seen then openParenthesis? rest
    else if cell.seen = '(' then some rest else none := by
  rw [openParenthesis?, dropBlanks_cons]
  split
  · rfl
  · rfl

/-- A parenthesis is not looked for behind a character that is neither blank nor one. -/
theorem openParenthesis?_append (hblank : isBlank cell.seen = false) (hopen : cell.seen ≠ '(')
    (front rest : List Cell) : openParenthesis? (front ++ cell :: rest) =
      (openParenthesis? front).map (· ++ cell :: rest) := by
  induction front with
  | nil =>
    rw [List.nil_append, openParenthesis?_cons, hblank, if_neg Bool.false_ne_true, if_neg hopen]
    rfl
  | cons next front ih =>
    rw [List.cons_append, openParenthesis?_cons, openParenthesis?_cons, ih]
    split
    · rfl
    · split <;> rfl

theorem freeBehind_of_openParenthesis? {free : Bool} (hfree : freeBehind free front = true)
    (h : openParenthesis? front = some after) : freeBehind true after = true := by
  induction front generalizing free with
  | nil => simp [openParenthesis?, dropBlanks, dropSeen?] at h
  | cons cell front ih =>
    rw [openParenthesis?_cons] at h
    split at h
    · exact ih hfree h
    · split at h
      · obtain rfl := Option.some.inj h
        exact freeBehind_true hfree
      · simp at h

/-! ## Looking for the keyword -/

theorem throughKeyword?_cons (cell : Cell) (rest : List Cell) : throughKeyword? (cell :: rest) =
    if ("function" : Text) <+: (cell :: rest).map Cell.seen then some (cell.offset + 8)
    else if cell.seen = '\n' then none else throughKeyword? rest := by
  rw [throughKeyword?]
  simp only [isSome_dropSeen?_iff]

/-- The keyword is found in front of a line break. -/
theorem isSome_throughKeyword? (hline : '\n' ∉ front.map Cell.seen)
    (hkeyword : ("function" : Text) <:+: front.map Cell.seen) (rest : List Cell) :
    (throughKeyword? (front ++ rest)).isSome = true := by
  induction front with
  | nil => exact absurd hkeyword (by decide)
  | cons cell front ih =>
    rw [List.cons_append, throughKeyword?_cons]
    split
    · rfl
    · rename_i hnot
      rw [List.map_cons, List.mem_cons, not_or] at hline
      rw [if_neg (Ne.symm hline.1)]
      refine ih hline.2 ((List.infix_cons_iff.1 hkeyword).resolve_left fun hstart => hnot ?_)
      rw [← List.cons_append, List.map_append]
      exact hstart.trans (List.prefix_append _ _)

/-- The keyword does not reach over a boundary. -/
theorem prefix_append_iff_of_free (hfree : freeBehind false front = true) (rest : List Cell) :
    ("function" : Text) <+: (front ++ rest).map Cell.seen ↔
      ("function" : Text) <+: front.map Cell.seen := by
  have hkeyword : ∀ c ∈ ("function" : Text), isBoundary c = false :=
    List.all_iff_forall_prop.1 (by decide)
  rw [← isSome_dropSeen?_iff, dropSeen?_append_of_free hkeyword hfree, Option.isSome_map,
    isSome_dropSeen?_iff]

/-- In front of a boundary, a keyword or a line break decides the search. -/
theorem throughKeyword?_append (hfree : freeBehind true front = true) (rest : List Cell) :
    throughKeyword? (front ++ rest) =
      if '\n' ∈ front.map Cell.seen ∨ ("function" : Text) <:+: front.map Cell.seen
      then throughKeyword? front else throughKeyword? rest := by
  induction front with
  | nil =>
    have hnone : ¬ ('\n' ∈ ([] : Text) ∨ ("function" : Text) <:+: []) := by decide
    rw [List.map_nil, if_neg hnone]
    rfl
  | cons cell front ih =>
    have hcell : freeBehind false (cell :: front) = true := hfree
    have hstart := prefix_append_iff_of_free hcell rest
    rw [List.cons_append, throughKeyword?_cons, throughKeyword?_cons, ← List.cons_append]
    -- The keyword is here, or a line breaks here, or the search goes on behind this cell.
    by_cases hhere : ("function" : Text) <+: (cell :: front).map Cell.seen
    · rw [if_pos (hstart.2 hhere), if_pos hhere, if_pos (.inr hhere.isInfix)]
    rw [if_neg (mt hstart.1 hhere), if_neg hhere]
    by_cases hline : cell.seen = '\n'
    · rw [if_pos hline, if_pos hline, if_pos (.inl (by simp [hline]))]
    have hdecided : ('\n' ∈ (cell :: front).map Cell.seen ∨
        ("function" : Text) <:+: (cell :: front).map Cell.seen) ↔
        ('\n' ∈ front.map Cell.seen ∨ ("function" : Text) <:+: front.map Cell.seen) := by
      rw [List.map_cons, List.mem_cons, List.infix_cons_iff, ← List.map_cons, or_iff_right hhere,
        or_iff_right (Ne.symm hline)]
    rw [if_neg hline, if_neg hline, ih (freeBehind_true hfree)]
    simp only [hdecided]

/-- What is passed has the keyword that is found, and the search stops at the byte behind it. -/
theorem exists_of_throughKeyword? {cells : List Cell} {stop : Nat}
    (h : throughKeyword? cells = some stop) :
    ∃ passed after, cells = passed ++ after ∧ ("function" : Text) <:+: passed.map Cell.seen ∧
      ∀ offset front, Aligned offset (front ++ cells) →
        stop = offset + Text.byteLength ((front ++ passed).flatMap Cell.written) := by
  induction cells with
  | nil => simp [throughKeyword?] at h
  | cons cell rest ih =>
    rw [throughKeyword?_cons] at h
    split at h
    · rename_i hhere
      obtain ⟨behind, hbehind⟩ := hhere
      obtain ⟨word, after, hcells, hword, -⟩ := List.map_eq_append_iff.1 hbehind.symm
      rw [hcells]
      -- the keyword is written as it is seen, so its length is known
      refine ⟨word, after, rfl, by rw [hword], fun offset front haligned => ?_⟩
      have hwritten := haligned.written_eq (by rw [hword]; decide)
      rw [← hcells] at haligned
      have hfirst : cell.seen = 'f' := (List.cons.inj hbehind).1.symm
      obtain ⟨hoffset, -⟩ := haligned front cell rest rfl (by rw [hfirst]; decide)
      rw [← Option.some.inj h, hoffset, List.flatMap_append, Text.byteLength_append, hwritten,
        hword, Nat.add_assoc]
      rfl
    · split at h
      · simp at h
      · obtain ⟨passed, after, rfl, hword, hstop⟩ := ih h
        refine ⟨cell :: passed, after, rfl, hword.trans (List.suffix_cons _ _).isInfix,
          fun offset front haligned => ?_⟩
        rw [List.append_cons] at haligned ⊢
        exact hstop offset _ haligned

/-! ## Headers -/

theorem headerEnd?_append (hcallee : ∀ c ∈ callee, isBoundary c = false)
    (hfree : freeBehind false front = true) (hblank : isBlank cell.seen = false)
    (hopen : cell.seen ≠ '(') (rest : List Cell) :
    headerEnd? callee (front ++ cell :: rest) =
      (dropSeen? callee front).bind fun named =>
        (openParenthesis? named).bind fun opened => throughKeyword? (opened ++ cell :: rest) := by
  rw [headerEnd?, dropSeen?_append_of_free hcallee hfree]
  rcases dropSeen? callee front with _ | named
  · rfl
  · simp only [Option.map_some, Option.bind_eq_bind, Option.bind_some]
    rw [openParenthesis?_append hblank hopen]
    rcases openParenthesis? named with _ | opened <;> rfl

/-- No header starts in front of a boundary where none did with a keyword behind it. -/
theorem headerEnd?_eq_none_of_append {cell' : Cell} {rest' : List Cell}
    (hcallee : ∀ c ∈ callee, isBoundary c = false) (hfree : freeBehind false front = true)
    (hseen : cell.seen = cell'.seen) (hblank : isBlank cell.seen = false)
    (hopen : cell.seen ≠ '(') (hkeyword : (throughKeyword? (cell :: rest)).isSome = true)
    (hnone : headerEnd? callee (front ++ cell :: rest) = none) :
    headerEnd? callee (front ++ cell' :: rest') = none := by
  rw [headerEnd?_append hcallee hfree hblank hopen] at hnone
  rw [headerEnd?_append hcallee hfree (hseen ▸ hblank) (hseen ▸ hopen)]
  rcases hnamed : dropSeen? callee front with _ | named
  · rfl
  rcases hopened : openParenthesis? named with _ | opened
  · rw [Option.bind_some, hopened, Option.bind_none]
  have hbehind : freeBehind true opened = true :=
    freeBehind_of_openParenthesis? (freeBehind_of_dropSeen? hcallee hfree hnamed) hopened
  rw [hnamed, Option.bind_some, hopened, Option.bind_some, throughKeyword?_append hbehind] at hnone
  rw [Option.bind_some, hopened, Option.bind_some, throughKeyword?_append hbehind]
  -- what is behind the boundary is searched in one case only, and there the keyword was found
  split at hnone
  · rename_i hdecided
    rw [if_pos hdecided, hnone]
  · rw [hnone] at hkeyword
    exact absurd hkeyword Bool.false_ne_true

/-- A header starts with its callee and has the keyword that it ends in. -/
theorem exists_of_headerEnd? {cells : List Cell} {stop : Nat}
    (h : headerEnd? callee cells = some stop) :
    ∃ passed after, cells = passed ++ after ∧ callee <+: passed.map Cell.seen ∧
      ("function" : Text) <:+: passed.map Cell.seen ∧
      ∀ offset front, Aligned offset (front ++ cells) →
        stop = offset + Text.byteLength ((front ++ passed).flatMap Cell.written) := by
  obtain ⟨named, hnamed, h⟩ := Option.bind_eq_some_iff.1 h
  obtain ⟨opened, hopened, hfound⟩ := Option.bind_eq_some_iff.1 h
  obtain ⟨name, rfl, hname⟩ := exists_of_dropSeen? hnamed
  obtain ⟨gap, rfl⟩ := suffix_of_openParenthesis? hopened
  obtain ⟨passed, after, rfl, hword, hstop⟩ := exists_of_throughKeyword? hfound
  refine ⟨name ++ (gap ++ passed), after, by simp, ?_, ?_, fun offset front haligned => ?_⟩
  · rw [List.map_append, hname]
    exact List.prefix_append _ _
  · rw [List.map_append, List.map_append]
    exact hword.trans ((List.suffix_append _ _).trans (List.suffix_append _ _)).isInfix
  · have hregroup : front ++ (name ++ (gap ++ (passed ++ after))) =
        front ++ name ++ gap ++ (passed ++ after) := by simp
    rw [hregroup] at haligned
    rw [hstop offset _ haligned]
    simp

end Recognition

/-! ## The search -/

/-- The rules of the search: the first header is the one that `behind` starts with, and it ends at
byte `stop`. None starts in front of it. -/
inductive Declares (callee : Text) (behind : List Cell) (stop : Nat) : Bool → List Cell → Prop
  | here (found : headerEnd? callee behind = some stop) : Declares callee behind stop true []
  | skipped {free : Bool} {cell : Cell} {front : List Cell}
      (hnone : free = true → headerEnd? callee (cell :: front ++ behind) = none)
      (tail : Declares callee behind stop (isBoundary cell.seen) front) :
      Declares callee behind stop free (cell :: front)

section Search

variable {callee : Text} {free : Bool} {front rest : List Cell} {cell : Cell} {stop : Nat}

theorem headerFrom?_of_eq_none (h : free = true → headerEnd? callee (cell :: rest) = none) :
    headerFrom? callee free (cell :: rest) = headerFrom? callee (isBoundary cell.seen) rest := by
  have hnone : (if free then headerEnd? callee (cell :: rest) else none) = none := by
    split
    · rename_i hfree
      exact h hfree
    · rfl
  rw [headerFrom?, hnone]

theorem headerFrom?_of_headerEnd? (h : headerEnd? callee (cell :: rest) = some stop) :
    headerFrom? callee true (cell :: rest) = some (cell.offset, stop) := by
  rw [headerFrom?, if_pos rfl, h]

/-- What is found is given by the rules. -/
theorem exists_declares {cells : List Cell} {start : Nat}
    (h : headerFrom? callee free cells = some (start, stop)) :
    ∃ front first after, cells = front ++ first :: after ∧ start = first.offset ∧
      Declares callee (first :: after) stop free front := by
  induction cells generalizing free with
  | nil => simp [headerFrom?] at h
  | cons cell rest ih =>
    by_cases hnone : free = true → headerEnd? callee (cell :: rest) = none
    · rw [headerFrom?_of_eq_none hnone] at h
      obtain ⟨front, first, after, rfl, hstart, htail⟩ := ih h
      exact ⟨cell :: front, first, after, rfl, hstart, .skipped hnone htail⟩
    · obtain ⟨rfl, hsome⟩ := Classical.not_imp.1 hnone
      obtain ⟨found, hfound⟩ := Option.ne_none_iff_exists'.1 hsome
      rw [headerFrom?_of_headerEnd? hfound, Option.some.injEq, Prod.mk.injEq] at h
      obtain ⟨rfl, rfl⟩ := h
      exact ⟨[], cell, rest, rfl, rfl, .here hfound⟩

namespace Declares

/-- What the rules give is found. -/
theorem headerFrom?_eq (h : Declares callee (cell :: rest) stop free front) :
    headerFrom? callee free (front ++ cell :: rest) = some (cell.offset, stop) := by
  induction h with
  | here found => exact headerFrom?_of_headerEnd? found
  | skipped hnone _ ih => exact (headerFrom?_of_eq_none hnone).trans ih

theorem headerEnd?_eq (h : Declares callee rest stop free front) :
    headerEnd? callee rest = some stop := by
  induction h with
  | here found => exact found
  | skipped _ _ ih => exact ih

theorem freeBehind_eq (h : Declares callee rest stop free front) :
    freeBehind free front = true := by
  induction h with
  | here => rfl
  | skipped _ _ ih => exact ih

/-- Another header in the place of the first one is the first as well. -/
theorem replaced {cell' : Cell} {rest' : List Cell} {stop' : Nat}
    (h : Declares callee (cell :: rest) stop free front)
    (hcallee : ∀ c ∈ callee, isBoundary c = false) (hseen : cell.seen = cell'.seen)
    (hblank : isBlank cell.seen = false) (hopen : cell.seen ≠ '(')
    (hkeyword : (throughKeyword? (cell :: rest)).isSome = true)
    (hend : headerEnd? callee (cell' :: rest') = some stop') :
    Declares callee (cell' :: rest') stop' free front := by
  induction h with
  | here => exact .here hend
  | skipped hnone tail ih =>
    exact .skipped (fun hfree => headerEnd?_eq_none_of_append hcallee tail.freeBehind_eq hseen
      hblank hopen hkeyword (hnone hfree)) ih

end Declares

end Search

/-! ## The first header of a source -/

/-- The cells of the first header of a source, `first` and `others`, and those on both sides. -/
structure Located (callee source : Text) (stop : Nat) (front : List Cell) (first : Cell)
    (others after : List Cell) : Prop where
  cells_eq : cells source = front ++ first :: (others ++ after)
  declares : Declares callee (first :: (others ++ after)) stop true front
  starts_with_callee : callee <+: (first :: others).map Cell.seen
  has_keyword : ("function" : Text) <:+: (first :: others).map Cell.seen
  stop_eq : stop = Text.byteLength ((front ++ first :: others).flatMap Cell.written)

section Located

variable {callee source : Text} {start stop : Nat}

/-- The first header of a source has cells, which start with a name that can be called. -/
theorem exists_located (hname : IsCallee callee)
    (h : headerSpan? callee source = some (start, stop)) :
    ∃ front first others after, Located callee source stop front first others after ∧
      start = first.offset := by
  obtain ⟨front, first, behind, hcells, hstart, hdeclares⟩ := exists_declares h
  obtain ⟨passed, after, hpassed, hseen, hkeyword, hstop⟩ :=
    exists_of_headerEnd? hdeclares.headerEnd?_eq
  have haligned := aligned_cells source
  rw [hcells] at haligned
  rcases passed with _ | ⟨cell, others⟩
  · exact absurd (List.prefix_nil.1 hseen) hname.nonempty
  · obtain ⟨rfl, rfl⟩ := List.cons.inj hpassed
    refine ⟨front, first, others, after, ⟨hcells, hdeclares, hseen, hkeyword, ?_⟩, hstart⟩
    rw [hstop 0 front haligned, Nat.zero_add]

namespace Located

variable {front others after : List Cell} {first : Cell}
  (h : Located callee source stop front first others after)

include h

theorem source_eq : source = front.flatMap Cell.written ++
    (first :: others).flatMap Cell.written ++ after.flatMap Cell.written := by
  rw [← flatMap_written_cells source, h.cells_eq, ← List.cons_append, List.flatMap_append,
    List.flatMap_append, List.append_assoc]

theorem isCalleeCharacter_seen (hname : IsCallee callee) :
    Config.isCalleeCharacter first.seen = true := by
  obtain ⟨c, name, rfl⟩ := List.exists_cons_of_ne_nil hname.nonempty
  have hseen := h.starts_with_callee
  rw [List.map_cons, List.cons_prefix_cons] at hseen
  rw [← hseen.1]
  exact hname.identifier c List.mem_cons_self

/-- The header is written where its first cell says. -/
theorem first_eq (hname : IsCallee callee) :
    first.offset = Text.byteLength (front.flatMap Cell.written) ∧
      first.written = [first.seen] := by
  have haligned := aligned_cells source
  rw [h.cells_eq] at haligned
  have hspace : first.seen ≠ ' ' :=
    Config.ne_of_isCalleeCharacter (h.isCalleeCharacter_seen hname) (by decide)
  obtain ⟨hoffset, hwritten⟩ := haligned front first (others ++ after) rfl hspace
  exact ⟨by rw [hoffset, Nat.zero_add], hwritten⟩

/-- On a header that is written on one line, the keyword is found from its start on. -/
theorem isSome_throughKeyword? (hline : '\n' ∉ (first :: others).flatMap Cell.written) :
    (throughKeyword? (first :: (others ++ after))).isSome = true := by
  rw [← List.cons_append]
  refine Script.isSome_throughKeyword? (fun hmem => hline ?_) h.has_keyword after
  -- a line break that is seen is written
  obtain ⟨cell, hcell, hseen⟩ := List.mem_map.1 hmem
  have hsource : cell ∈ cells source := by
    rw [h.cells_eq, ← List.cons_append]
    exact List.mem_append_right _ (List.mem_append_left _ hcell)
  exact List.mem_flatMap.2 ⟨cell, hcell, (line_mem_written_iff hsource).2 hseen⟩

end Located

/-- The text of a header that is found. -/
theorem exists_of_headerSpan? (hname : IsCallee callee)
    (h : headerSpan? callee source = some (start, stop)) :
    ∃ before header rest, source = before ++ header ++ rest ∧ start = Text.byteLength before ∧
      stop = Text.byteLength (before ++ header) := by
  obtain ⟨front, first, others, after, hlocated, rfl⟩ := exists_located hname h
  refine ⟨_, _, _, hlocated.source_eq, (hlocated.first_eq hname).1, ?_⟩
  rw [hlocated.stop_eq, List.flatMap_append]

end Located

end Script

end ModuleCompiler
