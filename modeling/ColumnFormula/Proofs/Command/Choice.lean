import ColumnFormula.Proofs.Command.Request
import ColumnFormula.Proofs.Text.Numeral

/-!
# Ways to write options

A choice of options, and of an expression, is written in phrases: words that name an option, or two
that name it and give its value, or a word that stands for itself.  `Phrase` lists their forms, and an
`Arrangement` puts phrases in some order so that what is chosen is said, each part of it once.  The
words of an arrangement are sorted into what the phrases say (`Arrangement.sorts`), in that order, and
the order does not matter to what is asked for.
-/

namespace ColumnFormula

/-- The name of a form of output. -/
def Render.Format.name : Render.Format → String
  | .json => "json"
  | .text => "text"

namespace Command

open Render (Format Options)
open Text (digits valueOf valueOf_digits isDigit_of_mem_digits digits_ne_nil)

/-! ## Choices -/

/-- A number as an offset may be written: with zeros in front, and with a plus sign in front of them. -/
structure Numeral where
  plus : Bool
  zeros : Nat
  value : Nat
  inRange : value < positionLimit

namespace Numeral

/-- The digits of a numeral. -/
def figures (n : Numeral) : List Char :=
  List.replicate n.zeros '0' ++ digits n.value

def text (n : Numeral) : String :=
  String.ofList ((if n.plus then ['+'] else []) ++ n.figures)

end Numeral

/-- What one can choose behind `tokenize`. -/
structure Choice where
  expression : Option String
  offset : Option Numeral
  format : Option Format
  pretty : Bool
  highlights : Bool

namespace Choice

/-- The options that are chosen; what is left out has its default. -/
def options (c : Choice) : Options where
  offset := (c.offset.map (·.value)).getD 0
  format := c.format.getD .json
  pretty := c.pretty
  highlights := c.highlights

/-- Everything that is chosen. -/
def items (c : Choice) : List Item :=
  (c.expression.map Item.operand).toList ++
    (c.offset.map fun n => Item.setting .offset n.text).toList ++
    (c.format.map fun f => Item.setting .format f.name).toList ++
    (if c.pretty then [.flag .pretty] else []) ++ (if c.highlights then [.flag .highlights] else [])

end Choice

/-! ## Phrases -/

def Setting.name : Setting → String
  | .offset => "offset"
  | .format => "format"

def Flag.name : Flag → String
  | .pretty => "pretty"
  | .highlights => "highlights"

/-- The word stands for itself: it is a dash, or begins with none. -/
def Stands (word : String) : Prop :=
  word = "-" ∨ word.toList.head? ≠ some '-'

/-- The forms in which something is said. -/
inductive Phrase
  /-- The expression. -/
  | operand (word : String)
  /-- An option without a value, by its name: `--pretty`. -/
  | flag (flag : Flag)
  /-- `-p`. -/
  | letter
  /-- An option and its value in two words: `--format text`. -/
  | apart (setting : Setting) (value : String)
  /-- An option and its value in one word: `--format=text`. -/
  | joined (setting : Setting) (value : String)
  /-- A cluster, with the value in the next word: `-f text`, `-pf text`. -/
  | clusterApart (pretty : Bool) (format : Format)
  /-- A cluster with the value: `-ftext`, `-f=text`, `-pftext`, `-pf=text`. -/
  | clusterJoined (pretty equals : Bool) (format : Format)

namespace Phrase

/-- The letters `f`, or `pf`, behind a dash. -/
def cluster (pretty : Bool) : String :=
  if pretty then "-pf" else "-f"

/-- What the letters in front of the value say. -/
def clusterItems (pretty : Bool) (format : Format) : List Item :=
  (if pretty then [.flag .pretty] else []) ++ [.setting .format format.name]

/-- A phrase in words. -/
def words : Phrase → List String
  | operand word => [word]
  | flag f => ["--" ++ f.name]
  | letter => ["-p"]
  | apart setting value => ["--" ++ setting.name, value]
  | joined setting value => ["--" ++ setting.name ++ "=" ++ value]
  | clusterApart pretty format => [cluster pretty, format.name]
  | clusterJoined pretty equals format =>
    [cluster pretty ++ (if equals then "=" else "") ++ format.name]

/-- What a phrase says. -/
def items : Phrase → List Item
  | operand word => [.operand word]
  | flag f => [.flag f]
  | letter => [.flag .pretty]
  | apart setting value => [.setting setting value]
  | joined setting value => [.setting setting value]
  | clusterApart pretty format => clusterItems pretty format
  | clusterJoined pretty _ format => clusterItems pretty format

end Phrase

/-- Phrases in some order that say what is chosen.  The expression stands for itself, or is behind the
separator. -/
structure Arrangement (choice : Choice) where
  phrases : List Phrase
  /-- The expression, if it is behind the separator. -/
  last : Option String
  perm : (phrases.flatMap Phrase.items ++ (last.map Item.operand).toList).Perm choice.items
  stands : ∀ word, .operand word ∈ phrases → Stands word

/-- The words of an arrangement. -/
def Arrangement.words {choice : Choice} (a : Arrangement choice) : List String :=
  a.phrases.flatMap Phrase.words ++
    match a.last with
    | none => []
    | some word => [separator, word]

/-! ## Words that stand for themselves -/

theorem isOption_eq_false_iff {word : String} : isOption word = false ↔ Stands word := by
  have hdash : word = "-" ↔ word.toList = ['-'] := String.toList_inj.symm
  rw [Stands, hdash, isOption]
  rcases word.toList with _ | ⟨c, _ | ⟨d, rest⟩⟩
  · simp
  · simp [em]
  · by_cases hc : c = '-'
    · subst hc
      simp
    · simp [hc]

theorem Numeral.stands (n : Numeral) : Stands n.text := by
  refine Or.inr ?_
  have hfigures : ∀ c ∈ n.figures, c ≠ '-' := by
    rintro c hc rfl
    rcases List.mem_append.1 hc with h | h
    · cases List.eq_of_mem_replicate h
    · cases isDigit_of_mem_digits h
  rw [text, String.toList_ofList]
  cases n.plus
  · intro hhead
    exact hfigures _ (List.mem_of_mem_head? hhead) rfl
  · simp

theorem stands_formatName (format : Format) : Stands format.name := by
  cases format <;> exact Or.inr (by decide)

/-- What is chosen has values that stand for themselves. -/
theorem Choice.stands_of_mem_items {choice : Choice} {setting : Setting} {value : String}
    (h : .setting setting value ∈ choice.items) : Stands value := by
  obtain ⟨expression, offset, format, pretty, highlights⟩ := choice
  simp only [items, List.mem_append, Option.mem_toList, Option.map_eq_some_iff] at h
  obtain (((⟨_, _, hitem⟩ | ⟨n, _, hitem⟩) | ⟨f, _, hitem⟩) | h) | h := h
  · cases hitem
  · cases hitem
    exact n.stands
  · cases hitem
    exact stands_formatName f
  · cases pretty <;> simp at h
  · cases highlights <;> simp at h

/-! ## Reading the words of a phrase -/

/-- A cluster that waits for a form of output. -/
theorem readOption_cluster (pretty : Bool) :
    readOption (Phrase.cluster pretty) =
      some ⟨if pretty then [.flag .pretty] else [], some .format⟩ := by
  cases pretty <;> rfl

theorem readOption_clusterJoined (pretty equals : Bool) (format : Format) :
    readOption (Phrase.cluster pretty ++ (if equals then "=" else "") ++ format.name) =
      some ⟨Phrase.clusterItems pretty format, none⟩ := by
  cases pretty <;> cases equals <;> cases format <;> rfl

theorem not_mem_settingName (setting : Setting) : '=' ∉ setting.name.toList := by
  cases setting <;> decide

theorem lookup_settingName (setting : Setting) :
    optionNames.lookup setting.name.toList = some (.setting setting) := by
  cases setting <;> rfl

theorem readOption_apart (setting : Setting) :
    readOption ("--" ++ setting.name) = some ⟨[], some setting⟩ := by
  cases setting <;> rfl

theorem toList_joined (name value : String) :
    ("--" ++ name ++ "=" ++ value).toList = '-' :: '-' :: (name.toList ++ '=' :: value.toList) := by
  simp [String.toList_append]

theorem readOption_joined (setting : Setting) (value : String) :
    readOption ("--" ++ setting.name ++ "=" ++ value) = some ⟨[.setting setting value], none⟩ := by
  have hname := not_mem_settingName setting
  rw [readOption, toList_joined]
  show readName _ = _
  rw [readName, Text.takeWhile_bne_append hname, Text.dropWhile_bne_append hname,
    lookup_settingName]
  show some (OptionWord.mk [.setting setting (String.ofList value.toList)] none) = _
  rw [String.ofList_toList]

/-- A word with no dash in front is not read as an option. -/
theorem readOption_eq_none {word : String} (h : word.toList.head? ≠ some '-') :
    readOption word = none := by
  rw [readOption]
  split
  · rename_i hword
    rw [hword] at h
    exact absurd rfl h
  · rename_i hword
    rw [hword] at h
    exact absurd rfl h
  · rfl

/-- What is read as an option, and is not a dash alone, is one. -/
theorem isOption_of_readOption {word : String} {w : OptionWord} (h : readOption word = some w)
    (hne : word ≠ "-") : isOption word = true := by
  by_contra hoption
  rw [Bool.not_eq_true, isOption_eq_false_iff] at hoption
  rcases hoption with hdash | hhead
  · exact hne hdash
  · rw [readOption_eq_none hhead] at h
    cases h

/-- Words that are sorted, and do not touch what is behind them. -/
structure SortsAhead (words : List String) (items : List Item) : Prop where
  sorts : Sorts words items
  free : separator ∉ words

namespace SortsAhead

variable {word value : String} {words words' : List String} {own items items' : List Item}
  {setting : Setting}

theorem nil : SortsAhead [] [] :=
  ⟨.nil, List.not_mem_nil⟩

theorem append (h : SortsAhead words items) (h' : SortsAhead words' items') :
    SortsAhead (words ++ words') (items ++ items') :=
  ⟨h.sorts.append h.free h'.sorts, fun hmem => (List.mem_append.1 hmem).elim h.free h'.free⟩

theorem operand (h : Stands word) : SortsAhead [word] [.operand word] := by
  have hoperand := isOption_eq_false_iff.2 h
  exact ⟨.operand hoperand .nil,
    fun hmem => ne_separator_of_operand hoperand (List.mem_singleton.1 hmem).symm⟩

/-- A word that is an option by itself. -/
theorem option (h : readOption word = some ⟨own, none⟩) (hne : word ≠ "-") :
    SortsAhead [word] own := by
  have hsorts := Sorts.option (isOption_of_readOption h hne) h .nil
  rw [List.append_nil] at hsorts
  exact ⟨hsorts, fun hmem => ne_separator_of_readOption h (List.mem_singleton.1 hmem).symm⟩

/-- An option that waits for its value, and the value. -/
theorem waiting (h : readOption word = some ⟨own, some setting⟩) (hne : word ≠ "-")
    (hvalue : Stands value) : SortsAhead [word, value] (own ++ [.setting setting value]) := by
  have hoperand := isOption_eq_false_iff.2 hvalue
  refine ⟨.waiting (isOption_of_readOption h hne) h hoperand .nil, fun hmem => ?_⟩
  rcases List.mem_pair.1 hmem with heq | heq
  · exact ne_separator_of_readOption h heq.symm
  · exact ne_separator_of_operand hoperand heq.symm

end SortsAhead

/-- The words of a phrase are sorted into what the phrase says. -/
theorem Phrase.sortsAhead (phrase : Phrase)
    (hoperand : ∀ word, phrase = .operand word → Stands word)
    (hvalue : ∀ setting value, .setting setting value ∈ phrase.items → Stands value) :
    SortsAhead phrase.words phrase.items := by
  cases phrase with
  | operand word => exact .operand (hoperand word rfl)
  | flag f => exact .option (by cases f <;> rfl) (by cases f <;> decide)
  | letter => exact .option rfl (by decide)
  | apart setting value =>
    exact .waiting (readOption_apart setting) (by cases setting <;> decide)
      (hvalue setting value List.mem_cons_self)
  | joined setting value =>
    refine .option (readOption_joined setting value) fun h => ?_
    have hword := toList_joined setting.name value
    rw [h] at hword
    cases hword
  | clusterApart pretty format =>
    exact .waiting (readOption_cluster pretty) (by cases pretty <;> decide)
      (stands_formatName format)
  | clusterJoined pretty equals format =>
    exact .option (readOption_clusterJoined pretty equals format)
      (by cases pretty <;> cases equals <;> cases format <;> decide)

theorem sortsAhead_phrases {phrases : List Phrase}
    (hoperand : ∀ word, .operand word ∈ phrases → Stands word)
    (hvalue : ∀ setting value, .setting setting value ∈ phrases.flatMap Phrase.items →
      Stands value) :
    SortsAhead (phrases.flatMap Phrase.words) (phrases.flatMap Phrase.items) := by
  induction phrases with
  | nil => exact .nil
  | cons phrase phrases ih =>
    rw [List.flatMap_cons, List.flatMap_cons]
    rw [List.flatMap_cons] at hvalue
    refine .append (phrase.sortsAhead (fun word h => ?_) fun setting value h => ?_)
      (ih (fun word h => ?_) fun setting value h => ?_)
    · exact hoperand word (h ▸ List.mem_cons_self)
    · exact hvalue setting value (List.mem_append_left _ h)
    · exact hoperand word (List.mem_cons_of_mem _ h)
    · exact hvalue setting value (List.mem_append_right _ h)

namespace Arrangement

variable {choice : Choice} (a : Arrangement choice)

/-- The words of an arrangement are sorted into what is said, in the order in which it is said. -/
theorem sorts : Sorts a.words
    (a.phrases.flatMap Phrase.items ++ (a.last.map Item.operand).toList) := by
  obtain ⟨phrases, last, hperm, hstands⟩ := a
  have hphrases := sortsAhead_phrases hstands fun setting value h =>
    choice.stands_of_mem_items (hperm.mem_iff.1 (List.mem_append_left _ h))
  refine hphrases.sorts.append hphrases.free ?_
  cases last with
  | none => exact .nil
  | some word => exact .separated [word]

end Arrangement

/-! ## What is asked for -/

theorem Numeral.readOffset_text (n : Numeral) : readOffset n.text = some n.value := by
  have hdigit : ∀ c ∈ n.figures, c.isDigit = true := by
    intro c hc
    rcases List.mem_append.1 hc with h | h
    · rw [List.eq_of_mem_replicate h]
      rfl
    · exact isDigit_of_mem_digits h
  have hne : n.figures ≠ [] := List.append_ne_nil_of_right_ne_nil _ (digits_ne_nil n.value)
  have hvalue : valueOf n.figures = n.value := by
    rw [figures, valueOf, Nat.ofDigitChars_append, Nat.ofDigitChars_replicate_zero, Nat.mul_zero]
    exact valueOf_digits n.value
  have hread : readOffset n.text =
      if n.figures ≠ [] ∧ n.figures.all Char.isDigit then
        (some (valueOf n.figures)).filter (· < positionLimit)
      else none := by
    rw [readOffset, text, String.toList_ofList]
    cases n.plus
    · -- The digits do not begin with a plus sign that could be left out.
      obtain ⟨c, rest, hfigures⟩ := List.exists_cons_of_ne_nil hne
      have hc : c ≠ '+' := by
        rintro rfl
        have hplus := hdigit '+' (by rw [hfigures]; exact List.mem_cons_self)
        cases hplus
      rw [hfigures]
      simp [hc]
    · rfl
  rw [hread, if_pos ⟨hne, List.all_eq_true.2 hdigit⟩, hvalue]
  exact Option.filter_eq_some_iff.2 ⟨rfl, decide_eq_true n.inRange⟩

theorem readFormat_name (format : Format) : readFormat format.name = some format := by
  cases format <;> rfl

theorem single?_toList {α : Type} (a : Option α) : single? a.toList = some a := by
  cases a <;> rfl

namespace Choice

variable (c : Choice)

/-- The items of each part of a choice. -/
theorem items_parts :
    operandsOf c.items = c.expression.toList ∧
      valuesOf .offset c.items = (c.offset.map (·.text)).toList ∧
      valuesOf .format c.items = (c.format.map (·.name)).toList ∧
      flagOf? .pretty c.items = some c.pretty ∧
      flagOf? .highlights c.items = some c.highlights := by
  obtain ⟨expression, offset, format, pretty, highlights⟩ := c
  cases expression <;> cases offset <;> cases format <;> cases pretty <;> cases highlights <;>
    exact ⟨rfl, rfl, rfl, rfl, rfl⟩

/-- What is chosen is what is asked for. -/
theorem tokenizeOf?_items : tokenizeOf? c.items = some (c.expression, c.options) := by
  obtain ⟨hexpression, hoffset, hformat, hpretty, hhighlights⟩ := c.items_parts
  refine tokenizeOf?_eq_some_iff.2 ⟨?_, ?_, ?_, hpretty, hhighlights⟩
  · rw [hexpression, single?_toList]
  · rw [settingOf?, hoffset, single?_toList, options]
    cases c.offset with
    | none => rfl
    | some n => exact n.readOffset_text
  · rw [settingOf?, hformat, single?_toList, options]
    cases c.format with
    | none => rfl
    | some format => exact readFormat_name format

end Choice

/-- However a choice is written, it is what the words ask for. -/
theorem Arrangement.ofWords?_words {choice : Choice} (a : Arrangement choice) :
    Request.ofWords? ("tokenize" :: a.words) =
      some (.tokenize choice.expression choice.options) :=
  ofWords?_tokenize_eq_some_iff.2
    ⟨_, a.sorts, (tokenizeOf?_perm a.perm).trans choice.tokenizeOf?_items⟩

end Command

end ColumnFormula
