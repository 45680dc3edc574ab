import ColumnFormula.Document.Basic
import ColumnFormula.Highlight

/-!
# Highlights in documents

A highlight is written as an object of its kind, the two positions of its span and its label, in this
order.  Reading takes the four in any order, with other members among them, or as an array; none of
them may be missing.
-/

namespace ColumnFormula.Highlight

/-- The document of a highlight. -/
def toJson (h : Highlight) : Json :=
  .ofMembers
    [("kind", .ofString h.kind.name), ("start", .ofNat h.span.start), ("end", .ofNat h.span.stop),
      ("label", .ofString h.label)]

/-- A highlight from its fields. -/
def ofFields? (kind start stop label : Option Json) : Option Highlight := do
  let kind ← Document.required? (Document.named? Kind.ofName?) kind
  let start ← Document.required? Document.position? start
  let stop ← Document.required? Document.position? stop
  let label ← Document.required? Document.text? label
  return ⟨kind, ⟨start, stop⟩, label⟩

/-- Reads the document of a highlight. -/
def ofJson? : Json → Option Highlight
  | .object members =>
    if Document.namesAreTexts members then do
      let kind ← Document.field? members "kind"
      let start ← Document.field? members "start"
      let stop ← Document.field? members "end"
      let label ← Document.field? members "label"
      ofFields? kind start stop label
    else none
  | .array [kind, start, stop, label] =>
    ofFields? (some kind) (some start) (some stop) (some label)
  | _ => none

/-- The document of a list of highlights. -/
def listToJson (highlights : List Highlight) : Json :=
  .array (highlights.map toJson)

/-- Reads the document of a list of highlights. -/
def listOfJson? : Json → Option (List Highlight)
  | .array items => items.mapM ofJson?
  | _ => none

end ColumnFormula.Highlight
