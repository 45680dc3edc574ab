import ColumnFormula.Command.Word

/-!
# Requests

What a command line asks for.  Every option may be said once, every option has a value for when it is
not said, and the expression is the one operand.  A command line that asks for nothing known is no
request.  Help is left out: its text is not this program's but comes with what reads the words, and a
command line that asks for it is outside of what is said here.
-/

namespace ColumnFormula.Command

open Render (Format Options)

/-- The only element of a list, or that there is none; `none` if there are several. -/
def single? {α : Type} : List α → Option (Option α)
  | [] => some none
  | [a] => some (some a)
  | _ => none

/-- The operands among items. -/
def operandsOf (items : List Item) : List String :=
  items.filterMap fun
    | .operand word => some word
    | _ => none

/-- The values that items give to an option. -/
def valuesOf (setting : Setting) (items : List Item) : List String :=
  items.filterMap fun
    | .setting s value => if s = setting then some value else none
    | _ => none

/-- The value of an option that may be said once. -/
def settingOf? {α : Type} (setting : Setting) (read : String → Option α) (default : α)
    (items : List Item) : Option α :=
  single? (valuesOf setting items) >>= fun
    | none => some default
    | some value => read value

/-- Whether an option is said, if not more than once. -/
def flagOf? (flag : Flag) (items : List Item) : Option Bool :=
  (single? (items.filter (· == .flag flag))).map (·.isSome)

/-- Reads an offset: digits, with a plus sign in front if one likes. -/
def readOffset (value : String) : Option Nat :=
  let digits := match value.toList with
    | '+' :: digits => digits
    | digits => digits
  if digits ≠ [] ∧ digits.all Char.isDigit then
    (some (Text.valueOf digits)).filter (· < positionLimit)
  else none

/-- Reads the name of a form of output. -/
def readFormat (value : String) : Option Format :=
  if value = "json" then some .json else if value = "text" then some .text else none

/-- What the items behind `tokenize` ask for: an expression, if it is among them, and options. -/
def tokenizeOf? (items : List Item) : Option (Option String × Options) := do
  let expression ← single? (operandsOf items)
  let offset ← settingOf? .offset readOffset Options.default.offset items
  let format ← settingOf? .format readFormat Options.default.format items
  let pretty ← flagOf? .pretty items
  let highlights ← flagOf? .highlights items
  return (expression, ⟨offset, format, pretty, highlights⟩)

/-- What a command line asks for. -/
inductive Request
  /-- Which version this is. -/
  | version
  /-- The overview of the manual. -/
  | overview
  /-- The page of a category. -/
  | page (category : String)
  /-- The tokens of an expression, which is the input if it is not given. -/
  | tokenize (expression : Option String) (options : Options)
  deriving DecidableEq, Repr

/-- Whether a word asks for the version: by its name, or by a cluster that starts with its letter. -/
def isVersion (word : String) : Bool :=
  word == "--version" ||
    match word.toList with
    | '-' :: 'V' :: _ => true
    | _ => false

/-- The request of a command line. -/
def Request.ofWords? : List String → Option Request
  | [] => none
  | word :: rest =>
    if isVersion word then some .version
    else if word = "tokenize" then
      (items? rest >>= tokenizeOf?).map fun (expression, options) => .tokenize expression options
    else if word = "docs" then
      match operands? rest with
      | some [] => some .overview
      | _ => none
    else if word = "doc" then
      match operands? rest with
      | some [category] => some (.page category)
      | _ => none
    else none

end ColumnFormula.Command
