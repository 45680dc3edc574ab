import ColumnFormula.Document.Basic
import ColumnFormula.Scan.Basic

/-!
# Scanning with every access checked

The machine once more, by operations that can fail.  Where the machine asks a source for a character
or a place, takes a stretch of it, looks at the last character of a stretch, or adds to a position, the
operation here says so if there is nothing to ask for or if a word does not hold the sum.  The cursor is
checked wherever it stands, also between the characters that one reader goes over: it may not leave its
region, and no region goes past the source.  The defaults that stand in the machine for what is not
there do not occur here.
-/

namespace ColumnFormula.Scan

open Token

/-- What stops a checked scan. -/
inductive Fault
  /-- The cursor stands behind the end of its region, or the region goes past the source. -/
  | cursor
  /-- A character or a place is asked for where the source has none. -/
  | index
  /-- A reader looks ahead behind the end of its region. -/
  | lookahead
  /-- A stretch of the source begins behind its end, or goes past the source. -/
  | slice
  /-- The place of a stretch is asked for that has no characters. -/
  | empty
  /-- A word does not hold a position. -/
  | overflow
  deriving DecidableEq, Repr

namespace Checked

/-! ## Operations that can fail -/

/-- Goes on if the condition holds. -/
def ensure (condition : Prop) [Decidable condition] (fault : Fault) : Except Fault Unit :=
  if condition then .ok () else .error fault

/-- The sum of two positions. -/
def add (a b : Nat) : Except Fault Nat :=
  if a + b < positionLimit then .ok (a + b) else .error .overflow

/-- The character at a position, and its place. -/
def mark (s : Source) (position : Nat) : Except Fault Mark :=
  match s.marks[position]? with
  | some mark => .ok mark
  | none => .error .index

/-- The same for a character that a reader looks ahead to, in the region that ends at `stop`. -/
def lookAhead (s : Source) (stop position : Nat) : Except Fault Mark := do
  ensure (position < stop) .lookahead
  mark s position

/-- Where the character at a position is reported to stand. -/
def report (s : Source) (position : Nat) : Except Fault Nat := do
  let mark ← mark s position
  add s.offset mark.place

/-- Where a stretch is reported to stand. -/
def span (s : Source) (start stop : Nat) : Except Fault Span := do
  let first ← report s start
  ensure (start < stop) .empty
  let last ← report s (stop - 1)
  let behind ← add last 1
  return ⟨first, behind⟩

/-- The text from one position up to another. -/
def text (s : Source) (start stop : Nat) : Except Fault String := do
  ensure (start ≤ stop ∧ stop ≤ s.length) .slice
  return s.text start stop

/-- Puts the cursor to a position of the region that ends at `stop`. -/
def moveTo (s : Source) (stop position : Nat) (c : Config) : Except Fault Config := do
  ensure (position ≤ stop ∧ stop ≤ s.length) .cursor
  return c.moveTo position

/-- Moves the cursor on while the character under it qualifies, and gives the position that it comes
to. -/
def goOver (s : Source) (qualifies : Nat → Char → Except Fault Bool) (stop position : Nat) :
    Except Fault Nat := do
  ensure (position ≤ stop ∧ stop ≤ s.length) .cursor
  match _h : s.charBefore stop position with
  | none => return position
  | some character =>
    if ← qualifies position character then goOver s qualifies stop (position + 1)
    else return position
termination_by stop - position
decreasing_by
  have := (charBefore_eq_some _h).1
  omega

/-- The first closing parenthesis at or after a position, or the length of the source if there is
none. -/
def searchClose (s : Source) (position : Nat) : Except Fault Nat := do
  ensure (position ≤ s.length) .slice
  return Scan.searchClose s position

/-- The same, by the last search if its find has not been passed. -/
def nextClose (s : Source) (found : Option Nat) (position : Nat) : Except Fault Nat :=
  match found with
  | some close => if position ≤ close then return close else searchClose s position
  | none => searchClose s position

/-! ## Readers

Each does what the reader of its name does. -/

/-- Whether a number goes on with a character.  Only a point asks for the character behind it, and
only if the region has one. -/
def inNumber (s : Source) (stop position : Nat) (character : Char) : Except Fault Bool :=
  if character.isDigit then return true
  else if character = '.' ∧ position + 1 < stop then do
    let next ← lookAhead s stop (position + 1)
    return next.char.isDigit
  else return false

def readNumber (s : Source) (stop : Nat) (c : Config) : Except Fault Config := do
  let past ← goOver s (inNumber s stop) stop c.position
  let number ← text s c.position past
  moveTo s stop past (c.emit (.ofText .number number))

def readBracket (s : Source) (stop : Nat) (c : Config) : Except Fault Config := do
  let inner := c.position + 1
  let opened ← moveTo s stop inner (c.emit (.bare .openSquareBracket))
  let past ← goOver s (fun _ character => return character != ']') stop inner
  let filled ←
    if inner < past then do
      let column ← text s inner past
      let span ← span s inner past
      moveTo s stop past (opened.emit (.ofColumn (.ofText column) span))
    else moveTo s stop past opened
  if s.charBefore stop past = some ']' then
    moveTo s stop (past + 1) (filled.emit (.bare .closeSquareBracket))
  else return filled

def readString (s : Source) (stop : Nat) (quote : Char) (c : Config) : Except Fault Config := do
  let inner := c.position + 1
  let opened ← moveTo s stop inner c
  let past ← goOver s (fun _ character => return character != quote) stop inner
  if s.charBefore stop past = some quote then do
    let body ← text s inner past
    moveTo s stop (past + 1) (opened.emit (.ofText .string body))
  else moveTo s stop past opened

def readName (s : Source) (stop : Nat) (c : Config) : Except Fault Config := do
  let past ← goOver s (fun _ character => return isNameChar character) stop c.position
  let name ← text s c.position past
  let span ← span s c.position past
  let named ← moveTo s stop past (c.emit (.ofFunction name span))
  if s.charBefore stop past = some '(' then
    moveTo s stop (past + 1) (named.emit (.bare .openParenthesis))
  else return named

def openArguments (s : Source) (stop : Nat) (c : Config) : Except Fault Config := do
  let close ← nextClose s c.nextClose c.position
  return { c with
    nextClose := some close
    regions := if close < stop then close :: c.regions else c.regions }

def abandon (s : Source) (stop : Nat) (character : Char) (c : Config) : Except Fault Config := do
  let place ← report s c.position
  moveTo s stop stop
    { c with diagnostics := c.diagnostics.push ⟨character, s.expression, place⟩ }

/-! ## Steps -/

def read (s : Source) (stop : Nat) (character : Char) (c : Config) : Except Fault Config :=
  match Role.of character with
  | .blank => moveTo s stop (c.position + 1) c
  | .operator kind =>
    moveTo s stop (c.position + 1) (c.emit (.ofText kind (String.singleton character)))
  | .closing => moveTo s stop (c.position + 1) (c.emit (.bare .openParenthesis))
  | .opening => moveTo s stop (c.position + 1) (c.emit (.bare .closeParenthesis))
  | .separator => moveTo s stop (c.position + 1) (c.emit (.ofText .argumentSeparator ","))
  | .digit => readNumber s stop c
  | .bracket => readBracket s stop c
  | .quote => readString s stop character c
  | .name => do
    let named ← readName s stop c
    openArguments s stop named
  | .unexpected => abandon s stop character c

/-- Leaves the innermost region.  Inside, the cursor goes over the parenthesis that ends it, and stays
in the region around it. -/
def leave (s : Source) (outer : List Nat) (c : Config) : Except Fault Config :=
  match outer with
  | [] => return { c.emit Token.endOfInput with regions := [] }
  | stop :: _ => do
    let closed ← moveTo s stop (c.position + 1) (c.emit (.bare .closeParenthesis))
    return { closed with regions := outer }

def advance (s : Source) (stop : Nat) (outer : List Nat) (c : Config) : Except Fault Config := do
  ensure (c.position ≤ stop ∧ stop ≤ s.length) .cursor
  match s.charBefore stop c.position with
  | some character => read s stop character c
  | none => leave s outer c

/-- One step, or `none` if no region is open. -/
def step (s : Source) (c : Config) : Except Fault (Option Config) :=
  match c.regions with
  | [] => return none
  | stop :: outer => (advance s stop outer c).map some

end Checked

end ColumnFormula.Scan
