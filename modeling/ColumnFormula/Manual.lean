/-!
# The manual

The pages that the program shows about itself: an overview of the categories and one page for each of
them.  A category goes by several names, and letters are matched without regard to case.
-/

namespace ColumnFormula.Manual

/-- What a page is about. -/
inductive Category
  | expressions
  | tokens
  | limitations
  deriving DecidableEq, Repr, Inhabited

/-- A page of lines, each of them ended. -/
def page (lines : List String) : String :=
  String.join (lines.map (· ++ "\n"))

/-- The categories of the manual and a short reference. -/
def overviewLines : List String :=
  [ "COLEXPR DOCUMENTATION",
    "",
    "colexpr splits column expressions such as [orders.total] + SUM([tax], 2) into",
    "the flat token stream consumed by the expression parser and the editor",
    "highlighter.",
    "",
    "DOCUMENTATION CATEGORIES",
    "",
    "  syntax            Column references, functions, literals and operators",
    "  tokens            Every token kind and the JSON shape it is emitted in",
    "  limitations       Scanner behaviors that parsers must tolerate",
    "",
    "QUICK REFERENCE",
    "",
    "  [column]          Column of the current table",
    "  [table.column]    Column of a named table",
    "  NAME(args)        Function call",
    "  1.5  \"text\"       Number and string literals",
    "  + - * / > < =     Operators",
    "",
    "Run 'colexpr doc <category>' for detailed documentation." ]

/-- How expressions are written. -/
def expressionLines : List String :=
  [ "SYNTAX - Expression Notation",
    "",
    "COLUMN REFERENCES",
    "  [column]",
    "  [table.column]",
    "    Text between brackets is split on its first '.'. Without a dot the table",
    "    is null and the whole text names the column.",
    "",
    "    Example:",
    "      colexpr tokenize '[orders.total]'",
    "      => COLUMN \x7b\"table\": \"orders\", \"column\": \"total\"\x7d, start 1, end 13",
    "",
    "FUNCTIONS",
    "  NAME(arguments)",
    "    Names use letters, digits, '_' and '$' and must not start with a digit.",
    "    Arguments are tokenized as a nested expression; their offsets still",
    "    point into the full expression.",
    "",
    "    Example:",
    "      colexpr tokenize 'SUM([a],[b])'",
    "",
    "LITERALS",
    "  42  3.14          Numbers, kept as text",
    "  \"paid\"  'draft'   Strings, no escape sequences",
    "",
    "OPERATORS",
    "  +  -  *  /        Arithmetic",
    "  >  <  =           Comparison",
    "",
    "WHITESPACE",
    "  Spaces separate tokens. Tabs, form feeds and line breaks are removed before",
    "  scanning. Offsets still count every character of the expression as",
    "  written, so they stay valid for multi-line input." ]

/-- The kinds of tokens and their documents. -/
def tokenLines : List String :=
  [ "TOKENS - Kinds and JSON Shape",
    "",
    "Each token is emitted as \x7b\"type\": KIND, \"value\": ..., \"start\": n, \"end\": n\x7d.",
    "\"value\" appears only on kinds that carry data, \"start\"/\"end\" only on COLUMN",
    "and FUNCTION.",
    "",
    "  END_OF_INPUT            Last token of every stream (alias: EOF)",
    "  NUMBER                  value: literal text, e.g. \"1.5\"",
    "  STRING                  value: text between the quotes",
    "  OPEN_PARENTHESIS",
    "  CLOSE_PARENTHESIS",
    "  OPEN_SQUARE_BRACKET",
    "  CLOSE_SQUARE_BRACKET",
    "  COLUMN                  value: \x7b\"table\": string|null, \"column\": string\x7d",
    "  FUNCTION                value: function name",
    "  ARGUMENT_SEPARATOR      value: \",\"",
    "  OPERATOR_ADD            value: \"+\"",
    "  OPERATOR_SUB            value: \"-\"",
    "  OPERATOR_MUL            value: \"*\"",
    "  OPERATOR_DIV            value: \"/\"",
    "  OPERATOR_GT             value: \">\"",
    "  OPERATOR_LT             value: \"<\"",
    "  OPERATOR_EQ             value: \"=\"",
    "  OPERATOR_NEQ            reserved, see 'colexpr doc limitations'",
    "  OPERATOR_GTE            reserved",
    "  OPERATOR_LTE            reserved",
    "  FUNCTION_ARGUMENTS      reserved, never emitted" ]

/-- What readers of a stream have to put up with. -/
def limitationLines : List String :=
  [ "LIMITATIONS - Behaviors Parsers Must Tolerate",
    "",
    "ONE CHARACTER PER OPERATOR",
    "  '>=' is emitted as OPERATOR_GT followed by OPERATOR_EQ, '<=' likewise.",
    "  '!' is not a recognised character, so '!=' stops the scan.",
    "",
    "BARE PARENTHESES ARE SWAPPED",
    "  Outside a function call, ')' is emitted as OPEN_PARENTHESIS and '(' as",
    "  CLOSE_PARENTHESIS. Parentheses that belong to a function call are emitted",
    "  correctly.",
    "",
    "ARGUMENTS END AT THE FIRST ')'",
    "  A function's arguments run to the first ')' after the name, not the",
    "  matching one. In 'A(B(1), 2)' the arguments of A are 'B(1'.",
    "",
    "TRUNCATION INSTEAD OF ERRORS",
    "  Unterminated string      no STRING token, scanning resumes at the end",
    "  Unterminated bracket     COLUMN without CLOSE_SQUARE_BRACKET",
    "  Unexpected character     warning logged, rest of the fragment dropped",
    "",
    "  Streams may therefore be shorter than the input; END_OF_INPUT is always",
    "  present." ]

/-- The overview of the manual. -/
def overview : String :=
  page overviewLines

namespace Category

/-- The heading of the category. -/
def title : Category → String
  | expressions => "Syntax"
  | tokens => "Tokens"
  | limitations => "Limitations"

/-- The page of the category. -/
def text : Category → String
  | expressions => page expressionLines
  | tokens => page tokenLines
  | limitations => page limitationLines

/-- The names of the categories. -/
def names : List (String × Category) :=
  [("syntax", expressions), ("tokens", tokens), ("token", tokens), ("kinds", tokens),
    ("limitations", limitations), ("limits", limitations), ("quirks", limitations)]

/-- A character without its case, as far as that can make it a letter of a name.  Of all characters
beyond ASCII, only the Kelvin sign has an ASCII letter as its lower-case form. -/
def withoutCase (c : Char) : Char :=
  if c = '\u212a' then 'k' else c.toLower

/-- The category that a name stands for, in any case. -/
def ofName? (name : String) : Option Category :=
  let key := String.ofList (name.toList.map withoutCase)
  (names.find? fun entry => entry.1 == key).map (·.2)

end Category

end ColumnFormula.Manual
