import ModuleCompiler.Json.Token

/-!
# JSON values

Package descriptors and configuration files are JSON texts. `Json.parse?` reads one strictly: one
value, blanks around it, nothing else. Its parts are then taken with `Json.fields?`, which reads a
record from an object or from an array of the fields in order, `Json.text?`, and `Json.table?` for
an object whose values are texts.
-/

namespace ModuleCompiler

/-- A JSON value. Members of an object keep their order and may repeat a name. -/
inductive Json where
  | null
  | bool (value : Bool)
  | number
  | string (text : Option Text)
  | array (items : List Json)
  | object (members : List (Option Text × Json))

namespace Json

/-! ## Reading a text -/

mutual

/-- Reads a value, nesting at most `fuel` deep, and leaves the tokens behind it. -/
def value? : Nat → List Token → Option (Json × List Token)
  | 0, _ => none
  | _ + 1, .null :: rest => some (.null, rest)
  | _ + 1, .bool b :: rest => some (.bool b, rest)
  | _ + 1, .number :: rest => some (.number, rest)
  | _ + 1, .string text :: rest => some (.string text, rest)
  | _ + 1, .leftBracket :: .rightBracket :: rest => some (.array [], rest)
  | fuel + 1, .leftBracket :: rest =>
    (items? fuel rest).map fun (items, after) => (.array items, after)
  | _ + 1, .leftBrace :: .rightBrace :: rest => some (.object [], rest)
  | fuel + 1, .leftBrace :: rest =>
    (members? fuel rest).map fun (members, after) => (.object members, after)
  | _ + 1, _ => none

/-- Reads the items of an array up to its closing bracket. -/
def items? : Nat → List Token → Option (List Json × List Token)
  | 0, _ => none
  | fuel + 1, tokens =>
    match value? fuel tokens with
    | some (item, .rightBracket :: rest) => some ([item], rest)
    | some (item, .comma :: rest) =>
      (items? fuel rest).map fun (items, after) => (item :: items, after)
    | _ => none

/-- Reads the members of an object up to its closing brace. -/
def members? : Nat → List Token → Option (List (Option Text × Json) × List Token)
  | 0, _ => none
  | fuel + 1, .string name :: .colon :: tokens =>
    match value? fuel tokens with
    | some (item, .rightBrace :: rest) => some ([(name, item)], rest)
    | some (item, .comma :: rest) =>
      (members? fuel rest).map fun (members, after) => ((name, item) :: members, after)
    | _ => none
  | _ + 1, _ => none

end

/-- Reads a text that holds one value. Each token is passed by at most two nested calls. -/
def parse? (text : Text) : Option Json := do
  let tokens ← tokens? text
  match value? (2 * tokens.length + 1) tokens with
  | some (value, []) => some value
  | _ => none

/-! ## Reading values -/

/-- The text of a string. -/
def text? : Json → Option Text
  | string text => text
  | _ => none

/-- The member that an object has under `name`, when it has at most one. -/
def member? (members : List (Option Text × Json)) (name : Text) : Option (Option Json) :=
  match members.filter (·.1 == some name) with
  | [] => some none
  | [member] => some (some member.2)
  | _ => none

/-- The fields of a record. An object gives each at most once, has texts as names, and may have
other members; an array gives the first fields in order. -/
def fields? (names : List Text) : Json → Option (List (Option Json))
  | object members =>
    if members.all (·.1.isSome) then names.mapM (member? members) else none
  | array items =>
    if items.length ≤ names.length then
      some (items.map some ++ List.replicate (names.length - items.length) none)
    else
      none
  | _ => none

/-- The table of an object whose values are texts. A repeated name counts where it stands last. -/
def table? : Json → Option (List (Text × Text))
  | object members => members.mapM fun (name, value) => do return (← name, ← value.text?)
  | _ => none

end Json

end ModuleCompiler
