import ModuleCompiler.Text.Basic

/-!
# Comments and quoted strings

A module's source is read as a sequence of lexemes: comments, quoted strings, and single
characters. Strings count as one lexeme so that comment marks inside them are text. A string that
does not end on its line, or a block comment that does not end at all, is no lexeme; its first
character stands alone then. The lexemes of a source, put together, are the source
(`flatMap_text_lexemes`).
-/

namespace ModuleCompiler.Script

/-- A piece of source text. -/
inductive Lexeme where
  /-- A comment, with its marks. -/
  | comment (text : Text)
  /-- A string with its quotes. -/
  | quoted (text : Text)
  /-- Any other character. -/
  | plain (c : Char)
deriving DecidableEq

/-- The source text of a lexeme. -/
def Lexeme.text : Lexeme → Text
  | comment text => text
  | quoted text => text
  | plain c => [c]

/-- The rest of a string up to its closing quote, which is included. A backslash takes away the
meaning of the character behind it, and a bare line break ends the search. -/
def closeQuote? (quote : Char) : Text → Option Text
  | [] => none
  -- a backslash at the end escapes nothing, and closes nothing
  | [c] => if c = quote then some [c] else none
  | c :: next :: rest =>
    if c = quote then some [c]
    else if c = '\\' then (closeQuote? quote rest).map (c :: next :: ·)
    else if c = '\n' then none
    else (closeQuote? quote (next :: rest)).map (c :: ·)

/-- The rest of a block comment up to its closing mark, which is included. -/
def closeBlock? : Text → Option Text
  | [] => none
  | [_] => none
  | c :: next :: rest =>
    if c = '*' ∧ next = '/' then some [c, next] else (closeBlock? (next :: rest)).map (c :: ·)

/-- The lexeme that starts with `c`, where `rest` is the source behind it. -/
def lexemeAt (c : Char) (rest : Text) : Lexeme :=
  if c = '"' ∨ c = '\'' then
    match closeQuote? c rest with
    | some body => .quoted (c :: body)
    | none => .plain c
  else if c = '/' then
    match rest with
    | '/' :: line => .comment (c :: '/' :: line.takeWhile (· != '\n'))
    | '*' :: block =>
      match closeBlock? block with
      | some body => .comment (c :: '*' :: body)
      | none => .plain c
    | _ => .plain c
  else
    .plain c

/-- The lexemes behind the first `skip` characters. -/
def lexemesFrom : Nat → Text → List Lexeme
  | _, [] => []
  | skip + 1, _ :: rest => lexemesFrom skip rest
  | 0, c :: rest =>
    let lexeme := lexemeAt c rest
    lexeme :: lexemesFrom (lexeme.text.length - 1) rest

/-- The lexemes of a source text. -/
def lexemes (source : Text) : List Lexeme :=
  lexemesFrom 0 source

/-! ## The lexemes make up the source -/

/-- The rest of a string stands at the start of what follows its quote. -/
theorem isPrefix_of_closeQuote? {quote : Char} {text body : Text}
    (h : closeQuote? quote text = some body) : body <+: text := by
  fun_induction closeQuote? quote text generalizing body with
  | case1 => simp at h
  | case2 => simp_all
  | case3 => simp_all
  | case4 =>
    obtain rfl := Option.some.inj h
    exact ⟨_, rfl⟩
  | case5 next rest _ ih =>
    obtain ⟨inner, hinner, rfl⟩ := Option.map_eq_some_iff.1 h
    simpa using ih hinner
  | case6 => simp at h
  | case7 c next rest _ _ _ ih =>
    obtain ⟨inner, hinner, rfl⟩ := Option.map_eq_some_iff.1 h
    simpa using ih hinner

/-- The rest of a comment stands at the start of what follows its mark. -/
theorem isPrefix_of_closeBlock? {text body : Text} (h : closeBlock? text = some body) :
    body <+: text := by
  fun_induction closeBlock? text generalizing body with
  | case1 => simp at h
  | case2 => simp at h
  | case3 =>
    obtain rfl := Option.some.inj h
    exact ⟨_, rfl⟩
  | case4 c next rest _ ih =>
    obtain ⟨inner, hinner, rfl⟩ := Option.map_eq_some_iff.1 h
    simpa using ih hinner

/-- A lexeme is its first character and a piece of what follows. -/
theorem exists_text_lexemeAt (c : Char) (rest : Text) :
    ∃ body, (lexemeAt c rest).text = c :: body ∧ body <+: rest := by
  unfold lexemeAt
  split
  · split
    · rename_i body h
      exact ⟨body, rfl, isPrefix_of_closeQuote? h⟩
    · exact ⟨[], rfl, List.nil_prefix⟩
  · split
    · split
      · rename_i line
        refine ⟨_, rfl, ?_⟩
        simpa using List.takeWhile_prefix (· != '\n')
      · rename_i block
        split
        · rename_i body h
          exact ⟨_, rfl, by simpa using isPrefix_of_closeBlock? h⟩
        · exact ⟨[], rfl, List.nil_prefix⟩
      · exact ⟨[], rfl, List.nil_prefix⟩
    · exact ⟨[], rfl, List.nil_prefix⟩

/-- The lexemes from some place on are the source from there on. -/
theorem flatMap_text_lexemesFrom (skip : Nat) (source : Text) :
    (lexemesFrom skip source).flatMap Lexeme.text = source.drop skip := by
  induction source generalizing skip with
  | nil => simp [lexemesFrom]
  | cons c rest ih =>
    cases skip with
    | succ skip => simp [lexemesFrom, ih]
    | zero =>
      obtain ⟨body, htext, hbody⟩ := exists_text_lexemeAt c rest
      simp only [lexemesFrom, List.flatMap_cons, ih, htext]
      -- what is passed over is the rest of the lexeme
      obtain ⟨tail, rfl⟩ := hbody
      simp

/-- The lexemes of a source, put together, are the source. -/
theorem flatMap_text_lexemes (source : Text) :
    (lexemes source).flatMap Lexeme.text = source := by
  simpa [lexemes] using flatMap_text_lexemesFrom 0 source

end ModuleCompiler.Script
