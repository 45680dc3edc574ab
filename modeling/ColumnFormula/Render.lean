import ColumnFormula.Document.Highlight
import ColumnFormula.Document.Token
import ColumnFormula.Json.Printer
import ColumnFormula.Scan.Basic

/-!
# Rendering

What a scan found, as text: as a JSON document or a line at a time.  A token's line has its kind, its
value if it has one and its place if it is known; a highlight's has all three.
-/

namespace ColumnFormula

namespace Span

/-- A span as it is written in a line. -/
def display (span : Span) : String :=
  " @" ++ Nat.repr span.start ++ ".." ++ Nat.repr span.stop

end Span

namespace Token

/-- A value as one text. -/
def Value.display : Value → String
  | .text s => s
  | .column c => c.display

/-- The line of a token. -/
def line (t : Token) : String :=
  t.kind.name ++
    (match t.value with
    | some value => " " ++ value.display
    | none => "") ++
    (match t.span? with
    | some span => span.display
    | none => "") ++ "\n"

/-- The lines of a stream. -/
def lines (tokens : List Token) : String :=
  String.join (tokens.map line)

end Token

namespace Highlight

/-- The line of a highlight. -/
def line (h : Highlight) : String :=
  h.kind.title ++ " " ++ h.label ++ h.span.display ++ "\n"

/-- The lines of a list of highlights. -/
def lines (highlights : List Highlight) : String :=
  String.join (highlights.map line)

end Highlight

namespace Render

/-- The forms of output. -/
inductive Format
  | json
  | text
  deriving DecidableEq, Repr, Inhabited

/-- How an expression is tokenized and its tokens are shown. -/
structure Options where
  /-- Where the expression starts in the text around it. -/
  offset : Nat
  format : Format
  /-- Whether a document is indented. -/
  pretty : Bool
  /-- Whether highlights are shown, and not tokens. -/
  highlights : Bool
  deriving DecidableEq, Repr, Inhabited

/-- The options when nothing is said. -/
def Options.default : Options :=
  ⟨0, .json, false, false⟩

/-- The layout of a document. -/
def Options.layout (o : Options) : Json.Layout :=
  if o.pretty then .indented else .compact

/-- A stream of tokens as the options ask for it. -/
def stream (o : Options) (tokens : List Token) : String :=
  match o.format, o.highlights with
  | .json, false => (Token.listToJson tokens).render o.layout
  | .json, true => (Highlight.listToJson (Highlight.ofTokens tokens)).render o.layout
  | .text, false => Token.lines tokens
  | .text, true => Highlight.lines (Highlight.ofTokens tokens)

/-- Tokenizes an expression and shows what was found. -/
def expression (o : Options) (text : String) : String :=
  stream o (tokenize text o.offset).tokens

end Render

end ColumnFormula
