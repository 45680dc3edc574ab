import ColumnFormula.Command.Request
import ColumnFormula.Manual

/-!
# Outcomes

What a command line leads to: an exit code, a text on the standard output and, where something failed,
a text on the standard error.  `run` says so from the words and the input alone, the input being a
sequence of bytes that is used only when a request needs it.
-/

namespace ColumnFormula.Command

/-- Why a request could not be met. -/
inductive Failure
  /-- An expression is neither given nor to be had from the input. -/
  | noInput
  /-- The input is not in UTF-8. -/
  | notText
  /-- No category of the manual bears the name. -/
  | unknownCategory (name : String)
  deriving DecidableEq, Repr

/-- The failure in words. -/
def Failure.message : Failure → String
  | noInput => "No input provided. Pass an expression or pipe one to stdin."
  | notText => "IO error: stream did not contain valid UTF-8"
  | unknownCategory name =>
    "Unknown category: '" ++ name ++ "'\nRun 'colexpr docs' to see available categories."

/-- The name of the program and its version. -/
def versionLine : String := "colexpr 0.1.0"

/-- The text, with a line feed at its end if it has none there. -/
def endLine (text : String) : String :=
  if text.toList.getLast? = some '\n' then text else text ++ "\n"

/-- The page of a category of the manual. -/
def manualPage (name : String) : Except Failure String :=
  match Manual.Category.ofName? name with
  | some category => .ok category.text
  | none => .error (.unknownCategory name)

/-- Tokenizes an expression that may be missing and renders what was found. -/
def renderExpression (options : Render.Options) : Option String → Except Failure String
  | some expression => .ok (Render.expression options expression)
  | none => .error .noInput

/-- The expression of a request: the one that is given, or else the input. -/
def expressionFrom (input : Option ByteArray) : Option String → Except Failure (Option String)
  | some expression => .ok (some expression)
  | none =>
    match input with
    | none => .ok none
    | some bytes =>
      match String.fromUTF8? bytes with
      | some text => .ok (some text)
      | none => .error .notText

/-- Whether meeting a request takes the input. -/
def Request.needsInput : Request → Bool
  | .tokenize none _ => true
  | _ => false

/-- What a request is answered with. -/
def Request.answer (input : Option ByteArray) : Request → Except Failure String
  | .version => .ok (versionLine ++ "\n")
  | .overview => .ok Manual.overview
  | .page category => manualPage category
  | .tokenize expression options =>
    expressionFrom input expression >>= fun expression =>
      (renderExpression options expression).map endLine

/-- The diagnostics to be logged while a request is met. -/
def Request.diagnostics (input : Option ByteArray) : Request → List Diagnostic
  | .tokenize expression options =>
    match expressionFrom input expression with
    | .ok (some text) => (ColumnFormula.tokenize text options.offset).diagnostics
    | _ => []
  | _ => []

/-- How a command ends. -/
structure Outcome where
  code : Nat
  stdout : String
  /-- What went wrong, for a request that could not be met. -/
  stderr : Option String
  deriving DecidableEq, Repr

/-- The end of a command line that asks for nothing known. -/
def Outcome.misuse : Outcome := ⟨2, "", none⟩

/-- The end of a request with the given answer. -/
def Outcome.ofAnswer : Except Failure String → Outcome
  | .ok text => ⟨0, text, none⟩
  | .error failure => ⟨1, "", some (failure.message ++ "\n")⟩

/-- What a command line may say. -/
def usage : String :=
  "Usage: colexpr tokenize [EXPRESSION] [--offset N] [-f|--format json|text] [-p|--pretty] " ++
    "[--highlights]\n       colexpr docs\n       colexpr doc CATEGORY\n"

/-- How a command line ends, with the given input to read. -/
def run (words : List String) (input : Option ByteArray) : Outcome :=
  match Request.ofWords? words with
  | some request => .ofAnswer (request.answer input)
  | none => .misuse

end ColumnFormula.Command
