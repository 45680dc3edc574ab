import ColumnFormula.Json.Spelling
import ColumnFormula.Proofs.Json.Number
import ColumnFormula.Proofs.Json.Text

/-!
# Values are read as they were written

Whatever layout a value is written in, as long as it puts nothing but space between the lexemes, the
text is taken apart into the spelling of the value (`spells_print`), and reading a spelling gives
the value back.  So every value is read from its own document, numbers with points and exponents and
strings that stand for no text included (`parse?_render`).
-/

namespace ColumnFormula.Json

open Text

/-! ## Texts and their lexemes -/

/-- In front of `rest`, the text is taken apart into the given lexemes. -/
def Spells (text : List Char) (front : List Lexeme) (rest : List Char) : Prop :=
  lexemes? (text ++ rest) = (lexemes? rest).map (front ++ ·)

namespace Spells

variable {text more rest : List Char} {front back : List Lexeme}

theorem append (h : Spells text front (more ++ rest)) (hmore : Spells more back rest) :
    Spells (text ++ more) (front ++ back) rest := by
  rw [Spells] at h hmore ⊢
  rw [List.append_assoc, h, hmore, Option.map_map]
  congr 1
  funext lexemes
  exact (List.append_assoc front back lexemes).symm

/-- Space gives no lexemes. -/
theorem of_space (h : ∀ c ∈ text, isSpace c = true) : Spells text [] rest := by
  rw [Spells]
  show _ = (lexemes? rest).map id
  rw [Option.map_id]
  induction text with
  | nil => rfl
  | cons c text ih =>
    obtain ⟨hc, htext⟩ := List.forall_mem_cons.1 h
    rw [List.cons_append, lexemes?_of_space hc]
    exact ih htext

theorem append_space (h : Spells text front (more ++ rest)) (hmore : ∀ c ∈ more, isSpace c = true) :
    Spells (text ++ more) front rest := by
  have hspace : Spells more [] rest := of_space hmore
  have hboth := h.append hspace
  rwa [List.append_nil] at hboth

theorem of_read {c : Char} {l : Lexeme} (hspace : isSpace c = false)
    (h : readLexeme (c :: (text ++ rest)) = some (l, rest)) : Spells (c :: text) [l] rest :=
  lexemes?_of_read hspace h

end Spells

/-- A character that is a lexeme by itself. -/
structure IsMark (c : Char) (l : Lexeme) : Prop where
  space : isSpace c = false
  read : ∀ rest, readLexeme (c :: rest) = some (l, rest)

/-- A mark with space behind it. -/
theorem IsMark.spells {c : Char} {l : Lexeme} {space : List Char} (h : IsMark c l)
    (hspace : ∀ d ∈ space, isSpace d = true) (rest : List Char) : Spells (c :: space) [l] rest := by
  have hmark : Spells [c] [l] (space ++ rest) := .of_read h.space (h.read _)
  exact hmark.append_space hspace

/-- A container without items. -/
theorem IsMark.spells_pair {a b : Char} {l m : Lexeme} (ha : IsMark a l) (hb : IsMark b m)
    (rest : List Char) : Spells [a, b] [l, m] rest := by
  have hopen := ha.spells (List.forall_mem_nil _) ([b] ++ rest)
  exact hopen.append (hb.spells (List.forall_mem_nil _) rest)

theorem isMark_openArray : IsMark '[' .openArray := ⟨rfl, fun _ => rfl⟩

theorem isMark_closeArray : IsMark ']' .closeArray := ⟨rfl, fun _ => rfl⟩

theorem isMark_openObject : IsMark '\x7b' .openObject := ⟨rfl, fun _ => rfl⟩

theorem isMark_closeObject : IsMark '\x7d' .closeObject := ⟨rfl, fun _ => rfl⟩

theorem isMark_comma : IsMark ',' .comma := ⟨rfl, fun _ => rfl⟩

theorem isMark_colon : IsMark ':' .colon := ⟨rfl, fun _ => rfl⟩

/-! ## Scalars -/

theorem spells_quoted (text : Option String) (rest : List Char) :
    Spells (quoted text) [.string text] rest := by
  obtain ⟨body, hquoted, hread⟩ := exists_quoted text
  rw [hquoted]
  refine .of_read rfl ?_
  show (readString (body ++ rest)).map _ = _
  rw [hread]
  rfl

/-- What begins with a digit is a number. -/
theorem readLexeme_digit {c : Char} (h : c.isDigit = true) (text : List Char) :
    readLexeme (c :: text) =
      (readNumber false (c :: text)).map fun (n, rest) => (.number n, rest) := by
  have hne : ∀ d : Char, d.isDigit = false → ∀ more, c :: text ≠ d :: more := by
    intro d hd more heq
    rw [(List.cons.inj heq).1, hd] at h
    cases h
  rw [readLexeme]
  all_goals exact fun _ => hne _ rfl _

theorem isSpace_of_isDigit {c : Char} (h : c.isDigit = true) : isSpace c = false := by
  rw [Bool.eq_false_iff]
  intro hspace
  simp only [isSpace, Bool.or_eq_true, beq_iff_eq] at hspace
  rcases hspace with ((rfl | rfl) | rfl) | rfl <;> cases h

theorem spells_printNumber (n : Number) {rest : List Char} (h : EndsNumber rest) :
    Spells (printNumber n) [.number n] rest := by
  have hread := readNumber_placed n h
  obtain ⟨c, more, hplaced, hc⟩ := placed_eq_cons n.mantissa n.scale
  rw [hplaced] at hread
  rw [printNumber, hplaced]
  cases hn : n.negative with
  | true =>
    rw [hn] at hread
    have hminus : readLexeme ('-' :: (c :: more ++ printExponent n.exponent ++ rest)) =
        some (.number n, rest) := by
      show (readNumber true _).map _ = _
      rw [List.append_assoc, hread]
      rfl
    exact .of_read rfl hminus
  | false =>
    rw [hn] at hread
    have hplain : readLexeme (c :: (more ++ printExponent n.exponent ++ rest)) =
        some (.number n, rest) := by
      rw [readLexeme_digit hc, List.append_assoc, ← List.cons_append, hread]
      rfl
    exact .of_read (isSpace_of_isDigit hc) hplain

/-! ## Layouts -/

/-- A layout that puts nothing but space between lexemes. -/
structure Layout.IsSpace (layout : Layout) : Prop where
  line : ∀ depth, ∀ c ∈ layout.line depth, Json.isSpace c = true
  afterColon : ∀ c ∈ layout.afterColon, Json.isSpace c = true

theorem Layout.isSpace_compact : Layout.compact.IsSpace :=
  ⟨fun _ _ h => absurd h List.not_mem_nil, fun _ h => absurd h List.not_mem_nil⟩

theorem Layout.isSpace_indented : Layout.indented.IsSpace := by
  refine ⟨?_, ?_⟩
  · intro depth c hc
    rcases List.mem_cons.1 hc with rfl | hc
    · rfl
    · rw [List.eq_of_mem_replicate hc]
      rfl
  · intro c hc
    rw [List.mem_singleton.1 hc]
    rfl

/-! ## What follows a value -/

theorem endsNumber_cons {c : Char} (h : c ∈ [',', ']', '\x7d']) (rest : List Char) :
    EndsNumber (c :: rest) := by
  intro d hd
  obtain rfl := Option.some.inj hd
  simp only [List.mem_cons, List.not_mem_nil, or_false] at h
  rcases h with rfl | rfl | rfl <;> decide

theorem EndsNumber.space_append {space rest : List Char} (h : EndsNumber rest)
    (hspace : ∀ c ∈ space, isSpace c = true) : EndsNumber (space ++ rest) := by
  cases space with
  | nil => exact h
  | cons c space =>
    intro d hd
    obtain rfl := Option.some.inj hd
    have hc := hspace c List.mem_cons_self
    simp only [isSpace, Bool.or_eq_true, beq_iff_eq] at hc
    rcases hc with ((rfl | rfl) | rfl) | rfl <;> decide

theorem EndsNumber.printItems {rest : List Char} (h : EndsNumber rest) (layout : Layout)
    (depth : Nat) (items : List Json) : EndsNumber (printItems layout depth items ++ rest) := by
  cases items with
  | nil =>
    rw [Json.printItems]
    exact h
  | cons item items =>
    rw [Json.printItems]
    exact endsNumber_cons (by decide) _

theorem EndsNumber.printMembers {rest : List Char} (h : EndsNumber rest) (layout : Layout)
    (depth : Nat) (members : List (Option String × Json)) :
    EndsNumber (printMembers layout depth members ++ rest) := by
  cases members with
  | nil =>
    rw [Json.printMembers]
    exact h
  | cons member members =>
    rw [Json.printMembers]
    exact endsNumber_cons (by decide) _

/-! ## Values -/

section

variable {layout : Layout}

/-- A member of an object, behind the mark in front of it. -/
theorem spells_member (hlayout : layout.IsSpace) {c : Char} {l : Lexeme} (hmark : IsMark c l)
    (depth : Nat) (name : Option String) {value : Json} {rest : List Char}
    (h : Spells (print layout depth value) (spelling value) rest) :
    Spells (c :: layout.line depth ++ quoted name ++ ':' :: layout.afterColon ++
      print layout depth value) (l :: .string name :: .colon :: spelling value) rest :=
  (((hmark.spells (hlayout.line depth) _).append (spells_quoted name _)).append
    (isMark_colon.spells hlayout.afterColon _)).append h

/-- The end of a container, on a line of its own. -/
theorem Spells.append_close {text : List Char} {front : List Lexeme} {rest : List Char}
    (hlayout : layout.IsSpace) {c : Char} {l : Lexeme} (hmark : IsMark c l) {depth : Nat}
    (h : Spells text front (layout.line depth ++ ([c] ++ rest))) :
    Spells (text ++ layout.line depth ++ [c]) (front ++ [l]) rest :=
  (h.append_space (hlayout.line depth)).append (hmark.spells (List.forall_mem_nil _) rest)

mutual

/-- A value is taken apart into its spelling. -/
theorem spells_print (hlayout : layout.IsSpace) (depth : Nat) (value : Json) {rest : List Char}
    (h : EndsNumber rest) : Spells (print layout depth value) (spelling value) rest := by
  match value with
  | .null => exact .of_read rfl rfl
  | .bool true => exact .of_read rfl rfl
  | .bool false => exact .of_read rfl rfl
  | .number n => exact spells_printNumber n h
  | .string text => exact spells_quoted text rest
  | .array [] => exact isMark_openArray.spells_pair isMark_closeArray rest
  | .object [] => exact isMark_openObject.spells_pair isMark_closeObject rest
  | .array (item :: items) =>
    have hend : EndsNumber (layout.line depth ++ ([']'] ++ rest)) :=
      (endsNumber_cons (by decide) rest).space_append (hlayout.line depth)
    have hitem := spells_print hlayout (depth + 1) item (hend.printItems layout (depth + 1) items)
    have hopen : Spells _ (.openArray :: spelling item) _ :=
      (isMark_openArray.spells (hlayout.line (depth + 1)) _).append hitem
    rw [print, spelling]
    exact (hopen.append (spells_printItems hlayout (depth + 1) items hend)).append_close hlayout
      isMark_closeArray
  | .object ((name, value) :: members) =>
    have hend : EndsNumber (layout.line depth ++ (['\x7d'] ++ rest)) :=
      (endsNumber_cons (by decide) rest).space_append (hlayout.line depth)
    have hvalue := spells_print hlayout (depth + 1) value
      (hend.printMembers layout (depth + 1) members)
    have hopen := spells_member hlayout isMark_openObject (depth + 1) name hvalue
    rw [print, spelling]
    exact (hopen.append (spells_printMembers hlayout (depth + 1) members hend)).append_close hlayout
      isMark_closeObject

/-- The same for the items of an array behind its first. -/
theorem spells_printItems (hlayout : layout.IsSpace) (depth : Nat) (items : List Json)
    {rest : List Char} (h : EndsNumber rest) :
    Spells (printItems layout depth items) (spellingItems items) rest := by
  match items with
  | [] =>
    rw [printItems, spellingItems]
    exact .of_space (List.forall_mem_nil _)
  | item :: items =>
    have hitem := spells_print hlayout depth item (h.printItems layout depth items)
    have hcomma : Spells _ (.comma :: spelling item) _ :=
      (isMark_comma.spells (hlayout.line depth) _).append hitem
    rw [printItems, spellingItems]
    exact hcomma.append (spells_printItems hlayout depth items h)

/-- The same for the members of an object behind its first. -/
theorem spells_printMembers (hlayout : layout.IsSpace) (depth : Nat)
    (members : List (Option String × Json)) {rest : List Char} (h : EndsNumber rest) :
    Spells (printMembers layout depth members) (spellingMembers members) rest := by
  match members with
  | [] =>
    rw [printMembers, spellingMembers]
    exact .of_space (List.forall_mem_nil _)
  | (name, value) :: members =>
    have hvalue := spells_print hlayout depth value (h.printMembers layout depth members)
    rw [printMembers, spellingMembers]
    exact (spells_member hlayout isMark_comma depth name hvalue).append
      (spells_printMembers hlayout depth members h)

end

/-- Every value is read from its document. -/
theorem parse?_render (hlayout : layout.IsSpace) (value : Json) :
    parse? (value.render layout) = some value := by
  have hspells : lexemes? (print layout 0 value ++ []) = (lexemes? []).map (spelling value ++ ·) :=
    spells_print hlayout 0 value endsNumber_nil
  rw [List.append_nil, lexemes?, Option.map_some, List.append_nil] at hspells
  rw [parse?, render, String.toList_ofList, hspells]
  exact readValue_spelling_nil value

end

end ColumnFormula.Json
