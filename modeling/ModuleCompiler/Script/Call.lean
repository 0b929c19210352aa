import ModuleCompiler.Script.Cell
import ModuleCompiler.Unicode.Blank
import ModuleCompiler.Unicode.WordCharacter

/-!
# Calls that name modules

Three calls take module ids: `require(...)` names modules to load before this one,
`require.async(...)` and `seajs.use(...)` modules to load on demand. The ids are the quoted pieces
of the argument, which may be an array and must stand on one line.

Calls are recognised in the masked view, cell by cell (`callAt?`, `calls`). The quoted pieces of
their arguments (`quotedRuns`) are the ids, and `scan` lists them with their places in the source.
-/

namespace ModuleCompiler.Script

open Unicode

/-- The calls that take module ids. -/
inductive CallKind where
  | require
  | requireAsync
  | use
deriving DecidableEq, Repr

/-- The function called. -/
def CallKind.callee : CallKind → Text
  | require => "require"
  | requireAsync => "require.async"
  | use => "seajs.use"

/-- Whether the modules named must be loaded first. -/
def CallKind.isSync (kind : CallKind) : Bool :=
  kind == .require

/-! ## Recognising a call -/

/-- What follows `pattern` in the view, when it starts there. -/
def dropSeen? : Text → List Cell → Option (List Cell)
  | [], cells => some cells
  | _ :: _, [] => none
  | c :: pattern, cell :: cells => if cell.seen = c then dropSeen? pattern cells else none

/-- What follows the blank characters at the start. -/
def dropBlanks (cells : List Cell) : List Cell :=
  cells.dropWhile fun cell => isBlank cell.seen

/-- What follows the character `c`, which may be missing. -/
def dropOptional (c : Char) (cells : List Cell) : List Cell :=
  (dropSeen? [c] cells).getD cells

/-- What follows an opening parenthesis, with blanks allowed before it. -/
def openParenthesis? (cells : List Cell) : Option (List Cell) :=
  dropSeen? ['('] (dropBlanks cells)

/-- What follows the end of an argument: a closing bracket, which may be missing, and a closing
parenthesis, with blanks allowed before it. -/
def closeArgument? (cells : List Cell) : Option (List Cell) :=
  dropSeen? [')'] (dropBlanks (dropOptional ']' cells))

/-- The argument up to the first place where it can end, on this line, and what follows the end. -/
def argument? (cells : List Cell) : Option (List Cell × List Cell) :=
  match closeArgument? cells with
  | some after => some ([], after)
  | none =>
    match cells with
    | [] => none
    | cell :: rest =>
      if cell.seen = '\n' then none
      else (argument? rest).map fun (argument, after) => (cell :: argument, after)

/-- A call, with the cells of its argument. -/
structure Call where
  kind : CallKind
  argument : List Cell
deriving DecidableEq

/-- The call of one kind that starts here, and what follows it. -/
def callOfKindAt? (cells : List Cell) (kind : CallKind) : Option (Call × List Cell) := do
  let opened ← openParenthesis? (← dropSeen? kind.callee cells)
  let (argument, after) ← argument? (dropOptional '[' (dropBlanks opened))
  return (⟨kind, argument⟩, after)

/-- The call that starts here, and what follows it. -/
def callAt? (cells : List Cell) : Option (Call × List Cell) :=
  -- the longer callee comes before the one it begins with
  [.use, .requireAsync, .require].findSome? (callOfKindAt? cells)

/-- Whether a callee may stand behind this character: it continues no longer name and selects no
member. -/
def isBoundary (c : Char) : Bool :=
  c != '.' && c != '$' && !isWordCharacter c

/-- Finds the calls behind the first `skip` cells. A call can start here if `free` holds: at the
start of the source, or behind a boundary that is not part of the call before. -/
def callsFrom : Nat → Bool → List Cell → List Call
  | _, _, [] => []
  | skip + 1, _, _ :: rest => callsFrom skip false rest
  | 0, free, cell :: rest =>
    match if free then callAt? (cell :: rest) else none with
    -- the cells of the call are passed over: no call starts inside another
    | some (call, after) => call :: callsFrom (rest.length - after.length) false rest
    | none => callsFrom 0 (isBoundary cell.seen) rest

/-- The calls of a source, in order. -/
def calls (source : Text) : List Call :=
  callsFrom 0 true (cells source)

/-! ## Ids -/

/-- Whether a character is a quote. -/
def isQuote (c : Char) : Bool :=
  c == '"' || c == '\''

/-- The pieces between quotes, each with the cell of its closing quote. Quotes pair up in order,
whichever of the two kinds they are. -/
def quotedRuns : Option (List Cell) → List Cell → List (List Cell × Cell)
  | _, [] => []
  | none, cell :: rest =>
    if isQuote cell.seen then quotedRuns (some []) rest else quotedRuns none rest
  | some run, cell :: rest =>
    if isQuote cell.seen then (run, cell) :: quotedRuns none rest
    else quotedRuns (some (run ++ [cell])) rest

/-- An id in a source, with the bytes it takes there. -/
structure IdSpan where
  kind : CallKind
  start : Nat
  stop : Nat
  id : Text
deriving DecidableEq

/-- The id of a quoted piece, as written in the source. -/
def IdSpan.ofRun (kind : CallKind) (run : List Cell) (closing : Cell) : IdSpan where
  kind := kind
  start := (run.head?.getD closing).offset
  stop := closing.offset
  id := run.flatMap Cell.written

/-- The ids of a call. -/
def Call.ids (call : Call) : List IdSpan :=
  (quotedRuns none call.argument).map fun (run, closing) => IdSpan.ofRun call.kind run closing

/-- The ids in the calls of a source, in order. -/
def scan (source : Text) : List IdSpan :=
  (calls source).flatMap Call.ids

/-- The ids that a source requires, in order and with repetitions. -/
def requiredIds (source : Text) : List Text :=
  ((scan source).filter (·.kind.isSync)).map IdSpan.id

end ModuleCompiler.Script
