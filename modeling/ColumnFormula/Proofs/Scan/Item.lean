import ColumnFormula.Proofs.Scan.Region
import ColumnFormula.Proofs.Text.Cut

/-!
# Items

An item is what a scan reads in one go where a token may begin: a blank, a symbol, a number, a whole
bracket, a string, a name with the parenthesis that opens its arguments, or what it drops.
`Item.first` says which item a text begins with, and it is the one place where the roles of
characters are gone through.  `nested_cons` and, for the machine, `read_eq` say that both scans do
what the first item says and go on behind its source; everything about whole scans is then a matter
of two cases, an item that is a name and one that is not.
-/

namespace ColumnFormula.Scan

open Text Token

/-! ## Items and their sources -/

theorem role_of_isQuote {c : Char} (h : isQuote c = true) : Role.of c = .quote :=
  Role.of_eq_quote_iff.2 (by simpa [isQuote] using h)

theorem isQuote_of_role {c : Char} (h : Role.of c = .quote) : isQuote c = true := by
  simpa [isQuote] using Role.of_eq_quote_iff.1 h

/-- What is read in one go where a token may begin. -/
inductive Item
  | blank (c : Char)
  | operator (kind : Kind) (c : Char)
  | separator
  /-- A closing parenthesis, and whether it ends a function's arguments. -/
  | closing (ends : Bool)
  /-- An opening parenthesis that stands behind no name. -/
  | opening
  | number (text : List Char)
  /-- A bracket's text, and whether the closing bracket follows. -/
  | bracket (inner : List Char) (closed : Bool)
  | string (quote : Char) (body : List Char)
  /-- A quote without a second one, and the rest of its region. -/
  | unclosed (quote : Char) (rest : List Char)
  /-- A name, and whether the parenthesis that opens its arguments follows at once. -/
  | name (text : List Char) (call : Bool)
  /-- An unexpected character, and the rest of its region. -/
  | dropped (c : Char) (rest : List Char)
  deriving DecidableEq, Repr

namespace Item

/-- The item that begins with a character in a role, from the rest of its region. -/
def ofRole (c : Char) (rest : List Char) : Role → Item
  | .blank => .blank c
  | .operator kind => .operator kind c
  | .closing => .closing false
  | .opening => .opening
  | .separator => .separator
  | .digit => .number (c :: numberTail rest)
  | .bracket => .bracket (rest.takeWhile (· != ']')) (rest.contains ']')
  | .quote =>
    if c ∈ rest then .string c (rest.takeWhile (· != c)) else .unclosed c rest
  | .name =>
    let more := rest.takeWhile isNameChar
    .name (c :: more) ((rest.drop more.length).head? == some '(')
  | .unexpected => .dropped c rest

/-- The item that a text begins with, from its first character and the rest of its region. -/
def first (c : Char) (rest : List Char) : Item :=
  ofRole c rest (Role.of c)

/-- The characters that an item was read from. -/
def source : Item → List Char
  | blank c => [c]
  | operator _ c => [c]
  | separator => [',']
  | closing _ => [')']
  | opening => ['(']
  | number text => text
  | bracket inner closed => '[' :: inner ++ (if closed then [']'] else [])
  | string quote body => quote :: body ++ [quote]
  | unclosed quote rest => quote :: rest
  | name text call => text ++ (if call then ['('] else [])
  | dropped c rest => c :: rest

/-- The tokens of an item whose source is at the position `base`. -/
def tokens (base : Nat) : Item → List Token
  | blank _ => []
  | operator kind c => [.ofText kind (String.singleton c)]
  | separator => [.ofText .argumentSeparator ","]
  | closing ends => [bare (if ends then .closeParenthesis else .openParenthesis)]
  | opening => [bare .closeParenthesis]
  | number text => [.ofText .number (String.ofList text)]
  | bracket inner closed =>
    bare .openSquareBracket ::
      (if inner = [] then []
        else [.ofColumn (.ofChars inner) ⟨base + 1, base + 1 + inner.length⟩]) ++
      (if closed then [bare .closeSquareBracket] else [])
  | string _ body => [.ofText .string (String.ofList body)]
  | unclosed _ _ => []
  | name text call =>
    .ofFunction (String.ofList text) ⟨base, base + text.length⟩ ::
      (if call then [bare .openParenthesis] else [])
  | dropped _ _ => []

/-- The unexpected character of an item whose source is at the position `base`, if it has one. -/
def unexpected (base : Nat) : Item → List (Char × Nat)
  | dropped c _ => [(c, base)]
  | _ => []

/-- What is found in an item. -/
def findings (base : Nat) (it : Item) : Findings :=
  ⟨it.tokens base, it.unexpected base⟩

/-- Whether the item is a name, so that a function's arguments begin behind it. -/
def isName : Item → Bool
  | name _ _ => true
  | _ => false

/-! ## Which item comes first -/

theorem first_of_role {c : Char} {role : Role} (h : Role.of c = role) (rest : List Char) :
    first c rest = ofRole c rest role := by
  rw [first, h]

theorem first_bracket {inner : List Char} (h : ']' ∉ inner) (after : List Char) :
    first '[' (inner ++ ']' :: after) = .bracket inner true := by
  rw [first_of_role (Role.of_eq_bracket_iff.2 rfl), ofRole, takeWhile_bne_append h]
  simp

theorem first_bracket_cut {inner : List Char} (h : ']' ∉ inner) :
    first '[' inner = .bracket inner false := by
  rw [first_of_role (Role.of_eq_bracket_iff.2 rfl), ofRole, takeWhile_bne_of_not_mem h]
  simpa using h

theorem first_string {quote : Char} (hquote : isQuote quote = true) {body : List Char}
    (h : quote ∉ body) (after : List Char) :
    first quote (body ++ quote :: after) = .string quote body := by
  rw [first_of_role (role_of_isQuote hquote), ofRole, takeWhile_bne_append h, if_pos (by simp)]

theorem first_unclosed {quote : Char} (hquote : isQuote quote = true) {rest : List Char}
    (h : quote ∉ rest) : first quote rest = .unclosed quote rest := by
  rw [first_of_role (role_of_isQuote hquote), ofRole, if_neg h]

theorem first_name {c : Char} (hrole : Role.of c = .name) {more rest : List Char}
    (h : ∀ d ∈ more, isNameChar d = true)
    (hrest : ∀ d ∈ rest.head?, isNameChar d = false ∧ d ≠ '(') :
    first c (more ++ rest) = .name (c :: more) false := by
  have htake : rest.takeWhile isNameChar = [] := by
    cases rest with
    | nil => rfl
    | cons d rest => exact List.takeWhile_cons_of_neg (by simp [(hrest d rfl).1])
  have hhead : (rest.head? == some '(') = false :=
    beq_eq_false_iff_ne.2 fun hopen => (hrest '(' hopen).2 rfl
  rw [first_of_role hrole, ofRole, List.takeWhile_append_of_pos h, htake, List.append_nil,
    List.drop_left, hhead]

theorem first_call {c : Char} (hrole : Role.of c = .name) {more : List Char}
    (h : ∀ d ∈ more, isNameChar d = true) (rest : List Char) :
    first c (more ++ '(' :: rest) = .name (c :: more) true := by
  rw [first_of_role hrole, ofRole, List.takeWhile_append_of_pos h,
    List.takeWhile_cons_of_neg (by decide), List.append_nil, List.drop_left]
  rfl

theorem isName_first (c : Char) (rest : List Char) :
    (first c rest).isName = (Role.of c == .name) := by
  rw [first]
  cases Role.of c with
  | quote =>
    rw [ofRole]
    split <;> rfl
  | _ => rfl

/-! ## What is behind the first item -/

/-- What a text has behind its first item. -/
def behind (c : Char) (rest : List Char) : List Char :=
  rest.drop ((first c rest).source.length - 1)

/-- The source of the first item is at the front of the text. -/
theorem prefix_source_first (c : Char) (rest : List Char) :
    (first c rest).source <+: c :: rest := by
  have hone : [c] <+: c :: rest := ⟨rest, rfl⟩
  cases hrole : Role.of c with
  | blank =>
    rw [first_of_role hrole]
    exact hone
  | operator kind =>
    rw [first_of_role hrole]
    exact hone
  | closing =>
    obtain rfl := Role.of_eq_closing_iff.1 hrole
    rw [first_of_role hrole]
    exact hone
  | opening =>
    obtain rfl := Role.of_eq_opening_iff.1 hrole
    rw [first_of_role hrole]
    exact hone
  | separator =>
    obtain rfl := Role.of_eq_separator_iff.1 hrole
    rw [first_of_role hrole]
    exact hone
  | digit =>
    rw [first_of_role hrole]
    exact (List.prefix_cons_inj c).2 (prefix_numberTail rest)
  | bracket =>
    obtain rfl := Role.of_eq_bracket_iff.1 hrole
    by_cases h : ']' ∈ rest
    · obtain ⟨inner, after, rfl, hnot⟩ := List.eq_append_cons_of_mem h
      rw [first_bracket hnot]
      exact ⟨after, by simp [source]⟩
    · rw [first_bracket_cut h]
      exact ⟨[], by simp [source]⟩
  | quote =>
    by_cases h : c ∈ rest
    · obtain ⟨body, after, rfl, hnot⟩ := List.eq_append_cons_of_mem h
      rw [first_string (isQuote_of_role hrole) hnot]
      exact ⟨after, by simp [source]⟩
    · rw [first_unclosed (isQuote_of_role hrole) h]
      exact List.prefix_rfl
  | name =>
    rw [first_of_role hrole, ofRole, source, List.cons_append, List.prefix_cons_inj]
    exact prefix_takeWhile_append_head isNameChar '(' rest
  | unexpected =>
    rw [first_of_role hrole]
    exact List.prefix_rfl

theorem one_le_length_source_first (c : Char) (rest : List Char) :
    1 ≤ (first c rest).source.length := by
  unfold first ofRole
  repeat' split
  all_goals simp [source]

/-- A text is the source of its first item and what is behind it. -/
theorem source_append_behind (c : Char) (rest : List Char) :
    (first c rest).source ++ behind c rest = c :: rest := by
  have hpos := one_le_length_source_first c rest
  have hdrop := List.prefix_iff_eq_append.1 (prefix_source_first c rest)
  have hsucc : (first c rest).source.length = (first c rest).source.length - 1 + 1 := by omega
  rw [hsucc, List.drop_succ_cons] at hdrop
  exact hdrop

theorem behind_eq {c : Char} {rest after : List Char}
    (h : (first c rest).source ++ after = c :: rest) : behind c rest = after :=
  List.append_cancel_left ((source_append_behind c rest).trans h.symm)

theorem drop_source_first (c : Char) (rest : List Char) :
    (c :: rest).drop (first c rest).source.length = behind c rest := by
  conv => lhs; arg 2; rw [← source_append_behind c rest]
  exact List.drop_left

theorem length_behind (c : Char) (rest : List Char) :
    (first c rest).source.length + (behind c rest).length = rest.length + 1 := by
  rw [← List.length_append, source_append_behind, List.length_cons]

theorem length_behind_le (c : Char) (rest : List Char) : (behind c rest).length ≤ rest.length := by
  have := length_behind c rest
  have := one_le_length_source_first c rest
  omega

end Item

/-! ## The nested scan, item by item -/

namespace Findings

@[ext] theorem ext {a b : Findings} (ht : a.tokens = b.tokens) (hu : a.unexpected = b.unexpected) :
    a = b := by
  cases a
  cases b
  rw [mk.injEq]
  exact ⟨ht, hu⟩

@[simp] theorem tokens_append (a b : Findings) : (a ++ b).tokens = a.tokens ++ b.tokens := rfl

@[simp] theorem unexpected_append (a b : Findings) :
    (a ++ b).unexpected = a.unexpected ++ b.unexpected := rfl

@[simp] theorem tokens_none : none.tokens = [] := rfl

@[simp] theorem unexpected_none : none.unexpected = [] := rfl

theorem after_eq_append (tokens : List Token) (found : Findings) :
    found.after tokens = ⟨tokens, []⟩ ++ found := rfl

theorem mk_append_mk (t u : List Token) (v w : List (Char × Nat)) :
    (⟨t, v⟩ ++ ⟨u, w⟩ : Findings) = ⟨t ++ u, v ++ w⟩ := rfl

theorem append_assoc (a b c : Findings) : a ++ b ++ c = a ++ (b ++ c) := by
  ext1 <;> simp

@[simp] theorem append_none (a : Findings) : a ++ none = a := by
  ext1 <;> simp

end Findings

/-- What is found behind a function's name: in its arguments, and behind the parenthesis that ends
them. -/
def nestedArguments (start : Nat) (text : List Char) : Findings :=
  let arguments := text.takeWhile (· != ')')
  let following := text.drop arguments.length
  nested start arguments ++
    if following = [] then .none
    else
      (nested (start + arguments.length + 1) (following.drop 1)).after [bare .closeParenthesis]

theorem nestedArguments_of_not_mem {text : List Char} (h : ')' ∉ text) (start : Nat) :
    nestedArguments start text = nested start text := by
  simp [nestedArguments, takeWhile_bne_of_not_mem h]

theorem nestedArguments_append {arguments : List Char} (h : ')' ∉ arguments) (start : Nat)
    (following : List Char) :
    nestedArguments start (arguments ++ ')' :: following) =
      nested start arguments ++ (⟨[bare .closeParenthesis], []⟩ ++
        nested (start + arguments.length + 1) following) := by
  simp [nestedArguments, takeWhile_bne_append h, Findings.after_eq_append]

@[simp] theorem nested_nil (base : Nat) : nested base [] = .none := by
  rw [nested]

theorem nested_bracket {inner : List Char} (h : ']' ∉ inner) (after : List Char) (base : Nat) :
    nested base ('[' :: (inner ++ ']' :: after)) =
      (Item.bracket inner true).findings base ++
        nested (base + (Item.bracket inner true).source.length) after := by
  have hrole : Role.of '[' = .bracket := by decide
  have hnext : base + 1 + inner.length + 1 = base + (inner.length + 1 + 1) := by omega
  rw [nested]
  simp only [hrole, takeWhile_bne_append h, List.drop_left]
  simp [bracketTokens, Item.findings, Item.tokens, Item.unexpected, Item.source,
    Findings.after_eq_append, hnext]

theorem nested_bracket_cut {inner : List Char} (h : ']' ∉ inner) (base : Nat) :
    nested base ('[' :: inner) = (Item.bracket inner false).findings base := by
  have hrole : Role.of '[' = .bracket := by decide
  rw [nested]
  simp only [hrole, takeWhile_bne_of_not_mem h, List.drop_length]
  simp [bracketTokens, Item.findings, Item.tokens, Item.unexpected, Findings.after_eq_append]

theorem nested_string {quote : Char} (hquote : isQuote quote = true) {body : List Char}
    (h : quote ∉ body) (after : List Char) (base : Nat) :
    nested base (quote :: (body ++ quote :: after)) =
      (Item.string quote body).findings base ++
        nested (base + (Item.string quote body).source.length) after := by
  have hnext : base + 1 + body.length + 1 = base + (body.length + 1 + 1) := by omega
  rw [nested]
  simp only [role_of_isQuote hquote, takeWhile_bne_append h, List.drop_left, hnext]
  simp [Item.findings, Item.tokens, Item.unexpected, Item.source, Findings.after_eq_append]

theorem nested_unclosed {quote : Char} (hquote : isQuote quote = true) {rest : List Char}
    (h : quote ∉ rest) (base : Nat) :
    nested base (quote :: rest) = (Item.unclosed quote rest).findings base := by
  rw [nested]
  simp only [role_of_isQuote hquote, takeWhile_bne_of_not_mem h, List.drop_length]
  rfl

theorem nested_name {c : Char} (hrole : Role.of c = .name) (rest : List Char) (base : Nat) :
    nested base (c :: rest) =
      (Item.first c rest).findings base ++
        nestedArguments (base + (Item.first c rest).source.length) (Item.behind c rest) := by
  rw [nested, Item.behind, Item.first_of_role hrole, Item.ofRole]
  simp only [hrole]
  generalize rest.takeWhile isNameChar = more
  have hstop : base + 1 + more.length = base + (more.length + 1) := by omega
  by_cases hcall : (rest.drop more.length).head? = some '('
  · have hstart : base + (more.length + 1) + 1 = base + (more.length + 1 + 1) := rfl
    simp only [hcall, hstop]
    simp [Item.findings, Item.tokens, Item.unexpected, Item.source, Findings.after_eq_append,
      nestedArguments, hstart]
  · have hbeq : ((rest.drop more.length).head? == some '(') = false := beq_eq_false_iff_ne.2 hcall
    simp only [hcall, hbeq, hstop]
    simp [Item.findings, Item.tokens, Item.unexpected, Item.source, Findings.after_eq_append,
      nestedArguments]

/-- The nested scan finds what is in the first item, and goes on behind it. -/
theorem nested_cons (base : Nat) (c : Char) (rest : List Char) :
    nested base (c :: rest) =
      (Item.first c rest).findings base ++
        if (Item.first c rest).isName then
          nestedArguments (base + (Item.first c rest).source.length) (Item.behind c rest)
        else nested (base + (Item.first c rest).source.length) (Item.behind c rest) := by
  rw [Item.isName_first]
  cases hrole : Role.of c with
  | name => exact nested_name hrole rest base
  | bracket =>
    obtain rfl := Role.of_eq_bracket_iff.1 hrole
    rw [if_neg (by decide)]
    by_cases h : ']' ∈ rest
    · obtain ⟨inner, after, rfl, hnot⟩ := List.eq_append_cons_of_mem h
      have hbehind : Item.behind '[' (inner ++ ']' :: after) = after :=
        Item.behind_eq (by simp [Item.first_bracket hnot, Item.source])
      rw [hbehind, Item.first_bracket hnot, nested_bracket hnot]
    · have hbehind : Item.behind '[' rest = [] :=
        Item.behind_eq (by simp [Item.first_bracket_cut h, Item.source])
      rw [hbehind, Item.first_bracket_cut h, nested_bracket_cut h, nested_nil, Findings.append_none]
  | quote =>
    have hquote := isQuote_of_role hrole
    rw [if_neg (by decide)]
    by_cases h : c ∈ rest
    · obtain ⟨body, after, rfl, hnot⟩ := List.eq_append_cons_of_mem h
      have hbehind : Item.behind c (body ++ c :: after) = after :=
        Item.behind_eq (by simp [Item.first_string hquote hnot, Item.source])
      rw [hbehind, Item.first_string hquote hnot, nested_string hquote hnot]
    · have hbehind : Item.behind c rest = [] :=
        Item.behind_eq (by simp [Item.first_unclosed hquote h, Item.source])
      rw [hbehind, Item.first_unclosed hquote h, nested_unclosed hquote h, nested_nil,
        Findings.append_none]
  | digit =>
    have hnext : base + 1 + (numberTail rest).length = base + (c :: numberTail rest).length := by
      rw [List.length_cons]
      omega
    rw [if_neg (by decide), nested, Item.behind, Item.first_of_role hrole]
    simp only [hrole, hnext]
    rfl
  | unexpected =>
    have hbehind : Item.behind c rest = [] :=
      Item.behind_eq (by simp [Item.first_of_role hrole, Item.ofRole, Item.source])
    rw [if_neg (by decide), hbehind, nested_nil, Findings.append_none, nested,
      Item.first_of_role hrole]
    simp only [hrole]
    rfl
  | _ =>
    rw [if_neg (by simp), nested, Item.behind, Item.first_of_role hrole]
    simp only [hrole]
    rfl

end ColumnFormula.Scan
