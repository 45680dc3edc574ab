import ColumnFormula.Diagnostic
import ColumnFormula.Scan.Role
import ColumnFormula.Source
import ColumnFormula.Text.Run

/-!
# Configurations of a scan

A scan is a machine over a source.  Its configuration holds the position of the next character, the
ends of the regions that are open, the innermost first, and what has been produced.  The whole source
is one region.  A function's name opens another if a closing parenthesis follows before the region it
stands in ends: that parenthesis, the first one and not the matching one, ends the arguments.  A
region that is left produces what ends it, a closing parenthesis inside and the end of the input
outside.

`step` does what one character calls for, and `run` steps until no region is open.  Every step
either moves the position on or leaves a region, so a run ends.  The cursor is not put to a region's
end when the region is left: that it stands there is a fact about the configurations a run reaches.
-/

namespace ColumnFormula.Scan

open Text Token

/-- Where a scan stands and what it has produced. -/
structure Config where
  /-- The position of the next character. -/
  position : Nat
  /-- The ends of the open regions, the innermost first. -/
  regions : List Nat
  /-- What the last search for a closing parenthesis found. -/
  nextClose : Option Nat
  tokens : Array Token
  diagnostics : Array Diagnostic
  deriving Repr

namespace Config

/-- A scan that is about to begin: the source is one open region. -/
def initial (s : Source) : Config :=
  ⟨0, [s.length], none, #[], #[]⟩

/-- The configuration with one more token produced. -/
def emit (c : Config) (t : Token) : Config :=
  { c with tokens := c.tokens.push t }

/-- The configuration with the cursor at a position. -/
def moveTo (c : Config) (position : Nat) : Config :=
  { c with position := position }

end Config

/-! ## The search for a closing parenthesis -/

/-- The first closing parenthesis at or after a position, or the length of the source if there is
none. -/
def searchClose (s : Source) (position : Nat) : Nat :=
  runEnd (fun i => !s.holds (· == ')') i) position s.length

/-- The same, by the last search if its find has not been passed, and by a new search otherwise. -/
def nextClose (s : Source) (found : Option Nat) (position : Nat) : Nat :=
  match found with
  | some close => if position ≤ close then close else searchClose s position
  | none => searchClose s position

/-! ## Readers

Each reader starts at a character of its role, inside the region that ends at `stop`. -/

/-- A digit, or a point in front of a digit of the same region. -/
def inNumber (s : Source) (stop position : Nat) : Bool :=
  s.holds Char.isDigit position ||
    (s.holds (· == '.') position && decide (position + 1 < stop) &&
      s.holds Char.isDigit (position + 1))

/-- A number goes on as long as digits and such points do. -/
def readNumber (s : Source) (stop : Nat) (c : Config) : Config :=
  let past := runEnd (inNumber s stop) c.position stop
  (c.emit (.ofText .number (s.text c.position past))).moveTo past

/-- A bracket without text has no column, and one that its region cuts off has no end. -/
def readBracket (s : Source) (stop : Nat) (c : Config) : Config :=
  let inner := c.position + 1
  let past := runEnd (s.holds (· != ']')) inner stop
  let opened := (c.emit (.bare .openSquareBracket)).moveTo past
  let filled :=
    if inner < past then
      opened.emit (.ofColumn (.ofText (s.text inner past)) (s.span inner past))
    else opened
  if s.charBefore stop past = some ']' then
    (filled.emit (.bare .closeSquareBracket)).moveTo (past + 1)
  else filled

/-- A string that its region cuts off is dropped. -/
def readString (s : Source) (stop : Nat) (quote : Char) (c : Config) : Config :=
  let inner := c.position + 1
  let past := runEnd (s.holds (· != quote)) inner stop
  if s.charBefore stop past = some quote then
    (c.emit (.ofText .string (s.text inner past))).moveTo (past + 1)
  else c.moveTo past

/-- A function's name, and the parenthesis that opens its arguments if it follows at once. -/
def readName (s : Source) (stop : Nat) (c : Config) : Config :=
  let past := runEnd (s.holds isNameChar) c.position stop
  let named := (c.emit (.ofFunction (s.text c.position past) (s.span c.position past))).moveTo past
  if s.charBefore stop past = some '(' then
    (named.emit (.bare .openParenthesis)).moveTo (past + 1)
  else named

/-- Opens the region of a function's arguments if a closing parenthesis ends it before `stop`. -/
def openArguments (s : Source) (stop : Nat) (c : Config) : Config :=
  let close := nextClose s c.nextClose c.position
  { c with
    nextClose := some close
    regions := if close < stop then close :: c.regions else c.regions }

/-- Reports the character and drops the rest of its region. -/
def abandon (s : Source) (stop : Nat) (character : Char) (c : Config) : Config :=
  { c with
    position := stop
    diagnostics := c.diagnostics.push ⟨character, s.expression, s.report c.position⟩ }

/-! ## Steps -/

/-- What a character calls for, by its role.  A parenthesis that belongs to no function's arguments
comes out as its counterpart: readers of the stream rely on that. -/
def read (s : Source) (stop : Nat) (character : Char) (c : Config) : Config :=
  match Role.of character with
  | .blank => c.moveTo (c.position + 1)
  | .operator kind =>
    (c.emit (.ofText kind (String.singleton character))).moveTo (c.position + 1)
  | .closing => (c.emit (.bare .openParenthesis)).moveTo (c.position + 1)
  | .opening => (c.emit (.bare .closeParenthesis)).moveTo (c.position + 1)
  | .separator => (c.emit (.ofText .argumentSeparator ",")).moveTo (c.position + 1)
  | .digit => readNumber s stop c
  | .bracket => readBracket s stop c
  | .quote => readString s stop character c
  | .name => openArguments s stop (readName s stop c)
  | .unexpected => abandon s stop character c

/-- Leaves the innermost region.  Inside, the cursor goes over the parenthesis that ends it. -/
def leave (outer : List Nat) (c : Config) : Config :=
  match outer with
  | [] => { c.emit Token.endOfInput with regions := [] }
  | _ :: _ =>
    { (c.emit (.bare .closeParenthesis)).moveTo (c.position + 1) with regions := outer }

/-- Goes on in the innermost region, which ends at `stop`, or leaves it if nothing is left there. -/
def advance (s : Source) (stop : Nat) (outer : List Nat) (c : Config) : Config :=
  match s.charBefore stop c.position with
  | some character => read s stop character c
  | none => leave outer c

/-- One step, or `none` if no region is open. -/
def step (s : Source) (c : Config) : Option Config :=
  match c.regions with
  | [] => none
  | stop :: outer => some (advance s stop outer c)

end ColumnFormula.Scan
