import ColumnFormula.Scan.Basic

/-!
# Scanning by nested texts

The same scan by plain recursion.  Where the machine keeps one source and the ends of the regions that
are open, this scan takes the arguments of every function out as a text of their own, up to the first
closing parenthesis or to the end of the text they stand in, scans that text, and goes on behind it.
An unexpected character ends the scan of its own text only.  Positions are counted in the text without
line controls; `ofSourceNested` turns them into places at the end, where the machine reports each
place as it meets it.
-/

namespace ColumnFormula

/-- The token with its place moved, if it has one. -/
def Token.relocate (move : Span → Span) (t : Token) : Token :=
  match t.span? with
  | none => t
  | some span => { t with start := some (move span).start, stop := some (move span).stop }

namespace Scan

open Token

/-- What is found in a text: tokens, and unexpected characters with their positions. -/
structure Findings where
  tokens : List Token
  unexpected : List (Char × Nat)
  deriving DecidableEq, Repr

namespace Findings

/-- Nothing is found. -/
def none : Findings :=
  ⟨[], []⟩

/-- What is found in a text, and then behind it. -/
def append (a b : Findings) : Findings :=
  ⟨a.tokens ++ b.tokens, a.unexpected ++ b.unexpected⟩

instance : Append Findings := ⟨append⟩

/-- The findings with tokens in front. -/
def after (tokens : List Token) (found : Findings) : Findings :=
  ⟨tokens ++ found.tokens, found.unexpected⟩

end Findings

/-- The part of a number behind its first digit: digits, and points in front of digits. -/
def numberTail : List Char → List Char
  | [] => []
  | c :: rest =>
    if c.isDigit then c :: numberTail rest
    else if c = '.' ∧ (rest.head?.any Char.isDigit) = true then c :: numberTail rest
    else []

/-- A column in brackets, if there is text between them, and the closing bracket if it is there. -/
def bracketTokens (base : Nat) (inner after : List Char) : List Token :=
  bare .openSquareBracket ::
    (if inner = [] then []
      else [.ofColumn (.ofChars inner) ⟨base + 1, base + 1 + inner.length⟩]) ++
    (if after = [] then [] else [bare .closeSquareBracket])

/-- Scans a text whose first character is at the position `base`. -/
def nested (base : Nat) (text : List Char) : Findings :=
  match text with
  | [] => .none
  | c :: rest =>
    match Role.of c with
    | .blank => nested (base + 1) rest
    | .operator kind => (nested (base + 1) rest).after [.ofText kind (String.singleton c)]
    | .closing => (nested (base + 1) rest).after [bare .openParenthesis]
    | .opening => (nested (base + 1) rest).after [bare .closeParenthesis]
    | .separator => (nested (base + 1) rest).after [.ofText .argumentSeparator ","]
    | .digit =>
      let more := numberTail rest
      (nested (base + 1 + more.length) (rest.drop more.length)).after
        [.ofText .number (String.ofList (c :: more))]
    | .bracket =>
      let inner := rest.takeWhile (· != ']')
      let behind := rest.drop inner.length
      (nested (base + 1 + inner.length + 1) (behind.drop 1)).after
        (bracketTokens base inner behind)
    | .quote =>
      let inner := rest.takeWhile (· != c)
      let behind := rest.drop inner.length
      if behind = [] then .none
      else
        (nested (base + 1 + inner.length + 1) (behind.drop 1)).after
          [.ofText .string (String.ofList inner)]
    | .name =>
      let more := rest.takeWhile isNameChar
      let function := Token.ofFunction (String.ofList (c :: more)) ⟨base, base + 1 + more.length⟩
      let behind := rest.drop more.length
      let opening := if behind.head? = some '(' then 1 else 0
      let start := base + 1 + more.length + opening
      let arguments := (behind.drop opening).takeWhile (· != ')')
      let following := (behind.drop opening).drop arguments.length
      (nested start arguments ++
        if following = [] then .none
        else
          (nested (start + arguments.length + 1) (following.drop 1)).after
            [bare .closeParenthesis]).after
        (function :: if opening = 1 then [bare .openParenthesis] else [])
    | .unexpected => ⟨[], [(c, base)]⟩
termination_by text.length
decreasing_by
  all_goals simp only [List.length_cons, List.length_drop]
  any_goals omega
  refine Nat.lt_succ_of_le (Nat.le_trans (List.takeWhile_sublist _).length_le ?_)
  simp only [List.length_drop]
  omega

/-- Scans a source by nested texts. -/
def ofSourceNested (s : Source) : Scan :=
  let found := nested 0 (s.chars 0 s.length)
  ⟨found.tokens.map (relocate fun span => s.span span.start span.stop) ++ [endOfInput],
    found.unexpected.map fun (c, position) => ⟨c, s.expression, s.report position⟩⟩

end Scan

end ColumnFormula
