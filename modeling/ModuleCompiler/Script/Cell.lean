import ModuleCompiler.Script.Lexeme

/-!
# The masked view of a source

Calls are looked for in a view of the source in which comments are blank: every line break stays,
and every other byte of a comment is seen as a space. A cell is one character of the view together
with its place in the source, so what is found in the view can be cut out of the source. `mask` is
what the cells show; what they have written is the source (`flatMap_written_cells`).
-/

namespace ModuleCompiler.Script

/-- One character of the masked view. -/
structure Cell where
  /-- The byte at which the character starts, in the view and in the source alike. -/
  offset : Nat
  /-- The character as the view shows it. -/
  seen : Char
  /-- What the source has here: the character that starts at this byte, if any. -/
  written : Text
deriving DecidableEq

/-- A character of a comment, seen as one space for each of its bytes. -/
def blanked (c : Char) : List (Char × Text) :=
  if c = '\n' then [(c, [c])]
  else (' ', [c]) :: List.replicate (c.utf8Size - 1) (' ', [])

/-- What the view shows of a lexeme, and what is written there. -/
def Lexeme.shown : Lexeme → List (Char × Text)
  | comment text => text.flatMap blanked
  | quoted text => text.map fun c => (c, [c])
  | plain c => [(c, [c])]

/-- Gives each shown character its place, the first at `offset`. -/
def place (offset : Nat) : List (Char × Text) → List Cell
  | [] => []
  | (seen, written) :: rest => ⟨offset, seen, written⟩ :: place (offset + seen.utf8Size) rest

/-- The cells of a source. -/
def cells (source : Text) : List Cell :=
  place 0 ((lexemes source).flatMap Lexeme.shown)

/-- The source with its comments blanked out, byte for byte. -/
def mask (source : Text) : Text :=
  (cells source).map Cell.seen

/-! ## Cells and source -/

/-- Placing characters does not change what is seen. -/
theorem map_seen_place (offset : Nat) (shown : List (Char × Text)) :
    (place offset shown).map Cell.seen = shown.map Prod.fst := by
  induction shown generalizing offset with
  | nil => rfl
  | cons head rest ih => simp [place, ih]

/-- Placing characters does not change what is written. -/
theorem flatMap_written_place (offset : Nat) (shown : List (Char × Text)) :
    (place offset shown).flatMap Cell.written = shown.flatMap Prod.snd := by
  induction shown generalizing offset with
  | nil => rfl
  | cons head rest ih => simp [place, ih]

/-- A blanked character is written once, in its first space. -/
theorem flatMap_snd_blanked (c : Char) : (blanked c).flatMap Prod.snd = [c] := by
  unfold blanked
  split <;> simp

/-- What is written in a lexeme is its text, whatever is seen of it. -/
theorem flatMap_snd_shown (lexeme : Lexeme) : lexeme.shown.flatMap Prod.snd = lexeme.text := by
  cases lexeme with
  | comment text =>
    simp [Lexeme.shown, Lexeme.text, List.flatMap_assoc, flatMap_snd_blanked]
  | quoted text => simp [Lexeme.shown, Lexeme.text, List.flatMap_map]
  | plain c => simp [Lexeme.shown, Lexeme.text]

/-- The cells of a source, as written, are the source. -/
theorem flatMap_written_cells (source : Text) :
    (cells source).flatMap Cell.written = source := by
  simp [cells, flatMap_written_place, List.flatMap_assoc, flatMap_snd_shown, flatMap_text_lexemes]

end ModuleCompiler.Script
