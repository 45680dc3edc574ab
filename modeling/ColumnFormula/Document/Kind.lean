import ColumnFormula.Token.Kind

/-!
# Kinds in documents

A document names a kind by its word in capitals, an underscore between the parts of the word.  The end
of the input may also be given by a short form, which is read and never written.  The names are made
from the words alone; that they are those under which kinds are known elsewhere is a theorem
(`documentName_eq_name` and `ofDocumentName?_eq_ofName?`, beside the other facts about documents).
-/

namespace ColumnFormula.Token.Kind

/-- A kind as one word, with a capital where a part of it begins. -/
def word : Kind → String
  | endOfInput => "EndOfInput"
  | number => "Number"
  | string => "String"
  | openParenthesis => "OpenParenthesis"
  | closeParenthesis => "CloseParenthesis"
  | openSquareBracket => "OpenSquareBracket"
  | closeSquareBracket => "CloseSquareBracket"
  | argumentSeparator => "ArgumentSeparator"
  | operatorAdd => "OperatorAdd"
  | operatorSub => "OperatorSub"
  | operatorMul => "OperatorMul"
  | operatorDiv => "OperatorDiv"
  | operatorGt => "OperatorGt"
  | operatorLt => "OperatorLt"
  | operatorEq => "OperatorEq"
  | operatorNeq => "OperatorNeq"
  | operatorGte => "OperatorGte"
  | operatorLte => "OperatorLte"
  | column => "Column"
  | function => "Function"
  | functionArguments => "FunctionArguments"

/-- A word in capitals, an underscore in front of each part but the first. -/
def screaming : List Char → List Char
  | [] => []
  | c :: rest => c.toUpper :: rest.flatMap fun d => if d.isUpper then ['_', d] else [d.toUpper]

/-- The name under which a kind is written in a document. -/
def documentName (kind : Kind) : String :=
  String.ofList (screaming kind.word.toList)

/-- Other names under which a kind is read. -/
def aliases : Kind → List String
  | endOfInput => ["EOF"]
  | _ => []

/-- The kind that a name stands for in a document. -/
def ofDocumentName? (name : String) : Option Kind :=
  all.find? fun kind => (kind.documentName :: kind.aliases).contains name

end ColumnFormula.Token.Kind
