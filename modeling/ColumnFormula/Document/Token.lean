import ColumnFormula.Document.Basic
import ColumnFormula.Document.Kind
import ColumnFormula.Json.Finite
import ColumnFormula.Token.Basic

/-!
# Tokens in documents

A token is written as an object of its kind, its value and its two positions, in this order, each of
the last three only if the token has it.  A text is written as a string and a column as an object of
its table, null if there is none, and its name.  Reading also takes the arrays of the fields, fields
that are null, other members and other orders.  It does not ask whether kind, value and positions
belong together.
-/

namespace ColumnFormula

namespace ColumnRef

/-- The document of a column. -/
def toJson (c : ColumnRef) : Json :=
  .ofMembers
    [("table", match c.table with
      | none => .null
      | some table => .ofString table),
    ("column", .ofString c.column)]

/-- A column from its fields. -/
def ofFields? (table column : Option Json) : Option ColumnRef := do
  let table ← Document.optional? Document.text? table
  let column ← Document.required? Document.text? column
  return ⟨table, column⟩

/-- Reads the document of a column. -/
def ofJson? : Json → Option ColumnRef
  | .object members => do
    let table ← Document.field? members "table"
    let column ← Document.field? members "column"
    ofFields? table column
  | .array [table, column] => ofFields? (some table) (some column)
  | _ => none

end ColumnRef

namespace Token

/-- How deep the containers of a token's value may be nested.  With the list and the token around it,
that makes 127. -/
def valueLevels : Nat := 125

/-- The document of a value. -/
def Value.toJson : Value → Json
  | .text s => .ofString s
  | .column c => c.toJson

/-- Reads the document of a value.  A value is held as data before it is looked at, members that are
of no use included. -/
def Value.ofJson? (json : Json) : Option Value :=
  if json.isStorable valueLevels then
    match json with
    | .string (some s) => some (.text s)
    | json => (ColumnRef.ofJson? json).map .column
  else none

/-- The document of a token. -/
def toJson (t : Token) : Json :=
  .ofMembers (("type", .ofString t.kind.documentName) :: Document.memberOf "value" Value.toJson t.value ++
    Document.memberOf "start" .ofNat t.start ++ Document.memberOf "end" .ofNat t.stop)

/-- A token from its fields. -/
def ofFields? (kind value start stop : Option Json) : Option Token := do
  let kind ← Document.required? (Document.named? Kind.ofDocumentName?) kind
  let value ← Document.optional? Value.ofJson? value
  let start ← Document.optional? Document.position? start
  let stop ← Document.optional? Document.position? stop
  return ⟨kind, value, start, stop⟩

/-- Reads the document of a token. -/
def ofJson? : Json → Option Token
  | .object members =>
    if Document.namesAreTexts members then do
      let kind ← Document.field? members "type"
      let value ← Document.field? members "value"
      let start ← Document.field? members "start"
      let stop ← Document.field? members "end"
      ofFields? kind value start stop
    else none
  | .array items =>
    if items.length ≤ 4 then ofFields? items[0]? items[1]? items[2]? items[3]? else none
  | _ => none

/-- The document of a stream. -/
def listToJson (tokens : List Token) : Json :=
  .array (tokens.map toJson)

/-- Reads the document of a stream. -/
def listOfJson? : Json → Option (List Token)
  | .array items => items.mapM ofJson?
  | _ => none

end Token

end ColumnFormula
