import ColumnFormula.Render

/-!
# Words of a command

The words that follow a command are operands and options.  A word with a dash in front of something
is an option: two dashes and a name, or one dash and a cluster of letters.  An option with a value takes
it from its own word, behind an equals sign, behind the letter in a cluster, or else from the word that
follows, which then may not be an option itself.  Behind two dashes alone every word is an operand.
`items?` sorts the words accordingly; what the options then mean is another question.
-/

namespace ColumnFormula.Command

/-- The options that take a value. -/
inductive Setting
  | offset
  | format
  deriving DecidableEq, Repr

/-- The options that are there or not. -/
inductive Flag
  | pretty
  | highlights
  deriving DecidableEq, Repr

/-- What the words of a command amount to. -/
inductive Item
  | operand (word : String)
  | flag (flag : Flag)
  | setting (setting : Setting) (value : String)
  deriving DecidableEq, Repr

/-- The name of an option behind two dashes. -/
inductive OptionName
  | flag (flag : Flag)
  | setting (setting : Setting)
  deriving DecidableEq, Repr

/-- The options by their names. -/
def optionNames : List (List Char × OptionName) :=
  [("offset".toList, .setting .offset), ("format".toList, .setting .format),
    ("pretty".toList, .flag .pretty), ("highlights".toList, .flag .highlights)]

/-- What one option word amounts to: items, and an option whose value is the next word. -/
structure OptionWord where
  items : List Item
  waiting : Option Setting
  deriving DecidableEq, Repr

/-- Behind this word, every word is an operand. -/
def separator : String := "--"

/-- Whether a word is an option, or the separator.  A dash alone is neither. -/
def isOption (word : String) : Bool :=
  match word.toList with
  | '-' :: _ :: _ => true
  | _ => false

/-- Reads the name of an option and, behind an equals sign, its value. -/
def readName (text : List Char) : Option OptionWord :=
  match optionNames.lookup (text.takeWhile (· != '=')), text.dropWhile (· != '=') with
  | some (.flag flag), [] => some ⟨[.flag flag], none⟩
  | some (.setting setting), [] => some ⟨[], some setting⟩
  | some (.setting setting), _ :: value => some ⟨[.setting setting (String.ofList value)], none⟩
  | _, _ => none

/-- Reads a cluster of letters.  The letter of an option with a value takes the rest of the cluster,
without an equals sign in front. -/
def readCluster : List Char → Option OptionWord
  | [] => some ⟨[], none⟩
  | 'p' :: rest => (readCluster rest).map fun w => { w with items := .flag .pretty :: w.items }
  | ['f'] => some ⟨[], some .format⟩
  | 'f' :: '=' :: value => some ⟨[.setting .format (String.ofList value)], none⟩
  | 'f' :: value => some ⟨[.setting .format (String.ofList value)], none⟩
  | _ => none

/-- Reads an option word other than the separator.  Words that ask for help are none of these
options. -/
def readOption (word : String) : Option OptionWord :=
  match word.toList with
  | '-' :: '-' :: name => readName name
  | '-' :: cluster => readCluster cluster
  | _ => none

/-- Sorts the words behind a command, unless one of them is no option of it or lacks its value. -/
def items? : List String → Option (List Item)
  | [] => some []
  | word :: rest =>
    if word = separator then some (rest.map .operand)
    else if isOption word then
      match readOption word, rest with
      | some ⟨items, none⟩, rest => (items? rest).map (items ++ ·)
      | some ⟨items, some setting⟩, value :: rest =>
        if isOption value then none
        else (items? rest).map (items ++ .setting setting value :: ·)
      | _, _ => none
    else (items? rest).map (.operand word :: ·)

/-- The words behind a command that has no options. -/
def operands? : List String → Option (List String)
  | [] => some []
  | word :: rest =>
    if word = separator then some rest
    else if isOption word then none
    else (operands? rest).map (word :: ·)

end ColumnFormula.Command
