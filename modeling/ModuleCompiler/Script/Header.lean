import ModuleCompiler.Script.Call
import ModuleCompiler.Script.Splice

/-!
# Header calls

A module declares itself by a header: a call of the configured function, up to the keyword of the
function it passes, all on one line. The header is looked for in the masked view, and the first one
counts.
-/

namespace ModuleCompiler.Script

/-- The byte behind the first keyword `function` on this line. -/
def throughKeyword? : List Cell → Option Nat
  | [] => none
  | cell :: rest =>
    if (dropSeen? "function" (cell :: rest)).isSome then some (cell.offset + 8)
    else if cell.seen = '\n' then none
    else throughKeyword? rest

/-- The byte behind the header that starts here. -/
def headerEnd? (callee : Text) (cells : List Cell) : Option Nat := do
  throughKeyword? (← openParenthesis? (← dropSeen? callee cells))

/-- Finds the first header and its bytes. One can start here if `free` holds: at the start of the
source, or behind a boundary. -/
def headerFrom? (callee : Text) : Bool → List Cell → Option (Nat × Nat)
  | _, [] => none
  | free, cell :: rest =>
    match if free then headerEnd? callee (cell :: rest) else none with
    | some stop => some (cell.offset, stop)
    | none => headerFrom? callee (isBoundary cell.seen) rest

/-- The bytes of the first header of a source. -/
def headerSpan? (callee source : Text) : Option (Nat × Nat) :=
  headerFrom? callee true (cells source)

/-- The header that declares a module's id and the modules it depends on. -/
def header (callee id : Text) (dependencies : List Text) : Text :=
  callee ++ ("(\"" : Text) ++ id ++ ("\", [" : Text)
    ++ Text.joined ", " (dependencies.map fun dependency => '"' :: dependency ++ ['"'])
    ++ ("], function" : Text)

/-- The source with `replacement` in place of its first header; without a header it stays as it
is. -/
def replaceHeader (callee source replacement : Text) : Text :=
  match headerSpan? callee source with
  | some (start, stop) => splice source [⟨start, stop, replacement⟩]
  | none => source

end ModuleCompiler.Script
