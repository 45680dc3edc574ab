import ColumnFormula.Proofs.Scan.Items

/-!
# Tilings

What becomes of every character of a text.  A tiling cuts the text into pieces that stand one behind
the other: blanks, the sources of single tokens, quotes that are not closed, and what is dropped with
an unexpected character.  The rules of `Tiling` do not mention the scan.  They say which pieces there
may be where, with nothing but one bit to be carried along: whether a function's name stands in front
whose arguments have not ended, so that the next closing parenthesis ends them.
-/

namespace ColumnFormula.Scan

open Text Token

/-! ## Pieces -/

/-- A stretch of a text, by what a scan makes of it. -/
inductive Piece
  | blank (c : Char)
  /-- The source of one token. -/
  | lexeme (source : List Char) (token : Token)
  /-- A quote without a second one, and the rest of its region. -/
  | unclosed (quote : Char) (rest : List Char)
  /-- An unexpected character, its position, and the rest of its region. -/
  | dropped (c : Char) (position : Nat) (rest : List Char)
  deriving DecidableEq, Repr

namespace Piece

/-- The characters of the piece. -/
def source : Piece → List Char
  | blank c => [c]
  | lexeme source _ => source
  | unclosed quote rest => quote :: rest
  | dropped c _ rest => c :: rest

/-- The token that the piece is the source of. -/
def token? : Piece → Option Token
  | lexeme _ token => some token
  | _ => none

/-- The unexpected character of the piece, and its position. -/
def unexpected? : Piece → Option (Char × Nat)
  | dropped c position _ => some (c, position)
  | _ => none

end Piece

/-- The piece between two brackets; there is none if nothing stands between them. -/
def columnPieces (start : Nat) (inner : List Char) : List Piece :=
  if inner = [] then []
  else [.lexeme inner (.ofColumn (.ofChars inner) ⟨start, start + inner.length⟩)]

theorem mem_columnPieces {start : Nat} {inner : List Char} {p : Piece} :
    p ∈ columnPieces start inner ↔
      inner ≠ [] ∧ p = .lexeme inner (.ofColumn (.ofChars inner) ⟨start, start + inner.length⟩) := by
  rw [columnPieces]
  split
  · rename_i h
    exact iff_of_false List.not_mem_nil fun hp => hp.1 h
  · rename_i h
    rw [List.mem_singleton, and_iff_right h]

/-! ## What the pieces may be -/

/-- The texts of numbers: digits, and single points between digits. -/
inductive NumberText : List Char → Prop
  | digit {c : Char} (h : c.isDigit = true) : NumberText [c]
  | digits {c : Char} {rest : List Char} (h : c.isDigit = true) (hrest : NumberText rest) :
      NumberText (c :: rest)
  | point {c : Char} {rest : List Char} (h : c.isDigit = true) (hrest : NumberText rest) :
      NumberText (c :: '.' :: rest)

/-- The texts of names: characters of names, the first of them no digit. -/
def NameText (text : List Char) : Prop :=
  text ≠ [] ∧ (∀ c ∈ text, isNameChar c = true) ∧ ∀ c ∈ text.head?, c.isDigit = false

instance (text : List Char) : Decidable (NameText text) :=
  decidable_of_iff
    (text ≠ [] ∧ text.all isNameChar = true ∧ text.head?.all (fun c => !c.isDigit) = true) (by
      rw [NameText, List.all_eq_true, Option.all_eq_true]
      simp only [Bool.not_eq_true', Option.mem_def])

/-- The tokens that are a single character, whatever stands in front. -/
inductive SymbolToken : Char → Token → Prop
  | operator {c : Char} {kind : Kind} (h : Operator.kindOfChar? c = some kind) :
      SymbolToken c (.ofText kind (String.singleton c))
  | separator : SymbolToken ',' (.ofText .argumentSeparator ",")
  | opening : SymbolToken '(' (bare .closeParenthesis)

/-- The kinds of the tokens that are a single character, whatever stands in front. -/
def symbolKinds : List Kind :=
  .argumentSeparator :: .closeParenthesis :: Operator.charKinds

theorem SymbolToken.kind_mem {c : Char} {token : Token} (h : SymbolToken c token) :
    token.kind ∈ symbolKinds := by
  cases h with
  | operator h =>
    exact List.mem_cons_of_mem _ (List.mem_cons_of_mem _ (Operator.kind_mem_charKinds h))
  | separator => exact List.mem_cons_self
  | opening => exact List.mem_cons_of_mem _ List.mem_cons_self

/-- The pieces tile a text that stands at the position `start`, inside a function's arguments or
not. -/
inductive Tiling : Bool → Nat → List Char → List Piece → Prop
  | nil {inside : Bool} {start : Nat} : Tiling inside start [] []
  | blank {inside : Bool} {start : Nat} {c : Char} {rest : List Char} {ps : List Piece}
      (h : isBlank c = true) (hrest : Tiling inside (start + 1) rest ps) :
      Tiling inside start (c :: rest) (.blank c :: ps)
  | symbol {inside : Bool} {start : Nat} {c : Char} {token : Token} {rest : List Char}
      {ps : List Piece} (h : SymbolToken c token) (hrest : Tiling inside (start + 1) rest ps) :
      Tiling inside start (c :: rest) (.lexeme [c] token :: ps)
  /-- The closing parenthesis that ends a function's arguments. -/
  | closing {start : Nat} {rest : List Char} {ps : List Piece}
      (hrest : Tiling false (start + 1) rest ps) :
      Tiling true start (')' :: rest) (.lexeme [')'] (bare .closeParenthesis) :: ps)
  /-- A closing parenthesis that ends none. -/
  | stray {start : Nat} {rest : List Char} {ps : List Piece}
      (hrest : Tiling false (start + 1) rest ps) :
      Tiling false start (')' :: rest) (.lexeme [')'] (bare .openParenthesis) :: ps)
  | number {inside : Bool} {start : Nat} {text rest : List Char} {ps : List Piece}
      (h : NumberText text) (hlongest : ∀ more, more <+: rest → NumberText (text ++ more) → more = [])
      (hrest : Tiling inside (start + text.length) rest ps) :
      Tiling inside start (text ++ rest)
        (.lexeme text (.ofText .number (String.ofList text)) :: ps)
  | bracket {inside : Bool} {start : Nat} {inner rest : List Char} {ps : List Piece}
      (h : ']' ∉ inner) (hregion : InRegion inside inner)
      (hrest : Tiling inside (start + inner.length + 2) rest ps) :
      Tiling inside start ('[' :: inner ++ ']' :: rest)
        (.lexeme ['['] (bare .openSquareBracket) :: columnPieces (start + 1) inner ++
          .lexeme [']'] (bare .closeSquareBracket) :: ps)
  /-- A bracket whose region ends before it is closed. -/
  | bracketCut {inside : Bool} {start : Nat} {inner rest : List Char} {ps : List Piece}
      (h : ']' ∉ inner) (hregion : InRegion inside inner) (hend : EndsRegion inside rest)
      (hrest : Tiling inside (start + inner.length + 1) rest ps) :
      Tiling inside start ('[' :: inner ++ rest)
        (.lexeme ['['] (bare .openSquareBracket) :: columnPieces (start + 1) inner ++ ps)
  | string {inside : Bool} {start : Nat} {quote : Char} {body rest : List Char} {ps : List Piece}
      (hquote : isQuote quote = true) (h : quote ∉ body) (hregion : InRegion inside body)
      (hrest : Tiling inside (start + body.length + 2) rest ps) :
      Tiling inside start (quote :: body ++ quote :: rest)
        (.lexeme (quote :: body ++ [quote]) (.ofText .string (String.ofList body)) :: ps)
  /-- A quote without a second one in its region. -/
  | unclosed {inside : Bool} {start : Nat} {quote : Char} {body rest : List Char} {ps : List Piece}
      (hquote : isQuote quote = true) (h : quote ∉ body) (hregion : InRegion inside body)
      (hend : EndsRegion inside rest) (hrest : Tiling inside (start + body.length + 1) rest ps) :
      Tiling inside start (quote :: body ++ rest) (.unclosed quote body :: ps)
  | name {inside : Bool} {start : Nat} {text rest : List Char} {ps : List Piece}
      (h : NameText text) (hlongest : ∀ c ∈ rest.head?, isNameChar c = false ∧ c ≠ '(')
      (hrest : Tiling true (start + text.length) rest ps) :
      Tiling inside start (text ++ rest)
        (.lexeme text (.ofFunction (String.ofList text) ⟨start, start + text.length⟩) :: ps)
  /-- A name with the parenthesis that opens its arguments. -/
  | call {inside : Bool} {start : Nat} {text rest : List Char} {ps : List Piece}
      (h : NameText text) (hrest : Tiling true (start + text.length + 1) rest ps) :
      Tiling inside start (text ++ '(' :: rest)
        (.lexeme text (.ofFunction (String.ofList text) ⟨start, start + text.length⟩) ::
          .lexeme ['('] (bare .openParenthesis) :: ps)
  /-- An unexpected character, with which the rest of its region is dropped. -/
  | dropped {inside : Bool} {start : Nat} {c : Char} {body rest : List Char} {ps : List Piece}
      (h : Role.of c = .unexpected) (hregion : InRegion inside body) (hend : EndsRegion inside rest)
      (hrest : Tiling inside (start + body.length + 1) rest ps) :
      Tiling inside start (c :: body ++ rest) (.dropped c start body :: ps)

/-! ## Numbers are read to their longest -/

theorem numberTail_digit {c : Char} (h : c.isDigit = true) (rest : List Char) :
    numberTail (c :: rest) = c :: numberTail rest := by
  rw [numberTail, if_pos h]

theorem numberTail_point {d : Char} (h : d.isDigit = true) (rest : List Char) :
    numberTail ('.' :: d :: rest) = '.' :: d :: numberTail rest := by
  rw [numberTail, if_neg (by decide), if_pos ⟨rfl, h⟩, numberTail_digit h]

/-- A number goes on with a digit, or with a point that has a digit behind it. -/
theorem numberTail_eq_nil {c : Char} {rest : List Char} (hrole : Role.of c ≠ .digit)
    (hpoint : c = '.' → rest.head?.any Char.isDigit = false) : numberTail (c :: rest) = [] := by
  have hdigit : ¬ c.isDigit = true := fun hdigit => hrole (Role.of_eq_digit_iff.2 hdigit)
  have hnext : ¬ (c = '.' ∧ rest.head?.any Char.isDigit = true) := by
    rintro ⟨hc, hnext⟩
    rw [hpoint hc] at hnext
    cases hnext
  rw [numberTail, if_neg hdigit, if_neg hnext]

theorem NumberText.head {c : Char} {rest : List Char} (h : NumberText (c :: rest)) :
    c.isDigit = true := by
  cases h with
  | digit h => exact h
  | digits h _ => exact h
  | point h _ => exact h

theorem numberText_numberTail {c : Char} (h : c.isDigit = true) (rest : List Char) :
    NumberText (c :: numberTail rest) := by
  fun_induction numberTail rest generalizing c with
  | case1 => exact .digit h
  | case2 d rest hd ih => exact .digits h (ih hd)
  | case3 d rest hd hpoint ih =>
    obtain ⟨rfl, hnext⟩ := hpoint
    cases rest with
    | nil => exact absurd hnext Bool.false_ne_true
    | cons e rest =>
      rw [numberTail_digit hnext]
      have hrest := ih h
      rw [numberTail_digit hnext] at hrest
      cases hrest with
      | digits _ hrest => exact .point h hrest
      -- Behind the point stands a digit, and not another point.
      | point _ _ =>
        have hpoint : '.'.isDigit = true := hnext
        exact absurd hpoint (by decide)
  | case4 d rest hd hpoint => exact .digit h

/-- A number that has been begun goes on behind any of its texts. -/
theorem NumberText.numberTail_append {c : Char} {tail : List Char} (h : NumberText (c :: tail))
    (rest : List Char) : numberTail (tail ++ rest) = tail ++ numberTail rest := by
  generalize hnumber : c :: tail = number at h
  induction h generalizing c tail with
  | digit _ =>
    obtain ⟨_, rfl⟩ := List.cons.inj hnumber
    rfl
  | digits _ hrest ih =>
    obtain ⟨_, rfl⟩ := List.cons.inj hnumber
    cases tail with
    | nil => rfl
    | cons d tail =>
      rw [List.cons_append, numberTail_digit hrest.head, ih rfl]
      rfl
  | @point _ more _ hrest ih =>
    obtain ⟨_, rfl⟩ := List.cons.inj hnumber
    cases more with
    | nil => cases hrest
    | cons d more =>
      rw [List.cons_append, List.cons_append, numberTail_point hrest.head, ih rfl]
      rfl

/-- A number does not go on where a region ends. -/
theorem numberTail_append {inside : Bool} {tail : List Char} (h : EndsRegion inside tail)
    (text : List Char) : numberTail (text ++ tail) = numberTail text := by
  have hends : numberTail tail = [] ∧ (tail.head?.any Char.isDigit) = false := by
    rcases h with rfl | ⟨_, hhead⟩
    · exact ⟨rfl, rfl⟩
    · obtain ⟨more, rfl⟩ := List.head?_eq_some_iff.1 hhead
      exact ⟨by rw [numberTail]; rfl, rfl⟩
  induction text with
  | nil => exact hends.1
  | cons c rest ih =>
    rw [List.cons_append, numberTail, numberTail, ih]
    cases rest with
    | nil => simp [hends.2]
    | cons d rest => rfl

/-! ## The pieces of an item -/

/-- The pieces of an item whose source is at the position `start`. -/
def Item.pieces (start : Nat) : Item → List Piece
  | blank c => [.blank c]
  | operator kind c => [.lexeme [c] (.ofText kind (String.singleton c))]
  | separator => [.lexeme [','] (.ofText .argumentSeparator ",")]
  | closing ends => [.lexeme [')'] (bare (if ends then .closeParenthesis else .openParenthesis))]
  | opening => [.lexeme ['('] (bare .closeParenthesis)]
  | number text => [.lexeme text (.ofText .number (String.ofList text))]
  | bracket inner closed =>
    .lexeme ['['] (bare .openSquareBracket) :: columnPieces (start + 1) inner ++
      (if closed then [.lexeme [']'] (bare .closeSquareBracket)] else [])
  | string quote body => [.lexeme (quote :: body ++ [quote]) (.ofText .string (String.ofList body))]
  | unclosed quote rest => [.unclosed quote rest]
  | name text call =>
    .lexeme text (.ofFunction (String.ofList text) ⟨start, start + text.length⟩) ::
      (if call then [.lexeme ['('] (bare .openParenthesis)] else [])
  | dropped c rest => [.dropped c start rest]

theorem flatMap_source_columnPieces (start : Nat) (inner : List Char) :
    (columnPieces start inner).flatMap Piece.source = inner := by
  rw [columnPieces]
  split
  · rename_i h
    exact h.symm
  · exact List.append_nil inner

theorem source_ne_nil_columnPieces {start : Nat} {inner : List Char} :
    ∀ p ∈ columnPieces start inner, p.source ≠ [] := by
  intro p hp
  obtain ⟨hne, rfl⟩ := mem_columnPieces.1 hp
  exact hne

theorem Item.filterMap_token_pieces (start : Nat) (it : Item) :
    (it.pieces start).filterMap Piece.token? = it.tokens start := by
  cases it with
  | bracket inner closed =>
    rw [pieces, tokens, columnPieces]
    by_cases h : inner = [] <;> cases closed <;> simp [h, Piece.token?]
  | name text call => cases call <;> rfl
  | _ => rfl

theorem Item.filterMap_unexpected_pieces (start : Nat) (it : Item) :
    (it.pieces start).filterMap Piece.unexpected? = it.unexpected start := by
  cases it with
  | bracket inner closed =>
    rw [pieces, unexpected, columnPieces]
    · by_cases h : inner = [] <;> cases closed <;> simp [h, Piece.unexpected?]
    · intro c rest h
      cases h
  | name text call => cases call <;> rfl
  | _ => rfl

/-! ## The items of a text tile it -/

namespace Tiling

variable {inside : Bool} {start : Nat} {c : Char} {region behind tail : List Char} {ps : List Piece}

theorem of_number (hrole : Role.of c = .digit) (hend : EndsRegion inside tail)
    (hbehind : (Item.number (c :: numberTail region)).source ++ behind = c :: region)
    (hrest : Tiling inside (start + (c :: numberTail region).length) (behind ++ tail) ps) :
    Tiling inside start (c :: numberTail region ++ (behind ++ tail))
      ((Item.number (c :: numberTail region)).pieces start ++ ps) := by
  have hdigit := Role.of_eq_digit_iff.1 hrole
  refine .number (numberText_numberTail hdigit region) ?_ hrest
  -- A longer number would go on in the region, for its end is no part of a number.
  intro more hmore hnumber
  obtain ⟨after, hafter⟩ := hmore
  have hregion : region = numberTail region ++ behind := (List.cons.inj hbehind).2.symm
  have hlonger : NumberText (c :: (numberTail region ++ more)) := hnumber
  have hread : numberTail region = numberTail region ++ (more ++ numberTail after) :=
    calc numberTail region
        = numberTail (region ++ tail) := (numberTail_append hend region).symm
      _ = numberTail (numberTail region ++ more ++ after) := by
          rw [List.append_assoc, hafter, ← List.append_assoc, ← hregion]
      _ = numberTail region ++ more ++ numberTail after := hlonger.numberTail_append after
      _ = numberTail region ++ (more ++ numberTail after) := List.append_assoc _ _ _
  exact (List.append_eq_nil_iff.1 (List.self_eq_append_right.1 hread)).1

theorem of_bracket (hregion : InRegion inside region) (hend : EndsRegion inside tail)
    (hbehind : (Item.first '[' region).source ++ behind = '[' :: region)
    (hrest : Tiling inside (start + (Item.first '[' region).source.length) (behind ++ tail) ps) :
    Tiling inside start ((Item.first '[' region).source ++ (behind ++ tail))
      ((Item.first '[' region).pieces start ++ ps) := by
  by_cases hmem : ']' ∈ region
  · obtain ⟨inner, after, rfl, hnot⟩ := List.eq_append_cons_of_mem hmem
    rw [Item.first_bracket hnot] at hbehind hrest ⊢
    obtain rfl : behind = after := by simpa [Item.source] using hbehind
    have hinner : InRegion inside inner := fun hi hin => hregion hi (List.mem_append_left _ hin)
    have hnext : Tiling inside (start + inner.length + 2) (behind ++ tail) ps := by
      simpa [Item.source, Nat.add_assoc] using hrest
    simpa [Item.pieces, Item.source] using Tiling.bracket hnot hinner hnext
  · rw [Item.first_bracket_cut hmem] at hbehind hrest ⊢
    obtain rfl : behind = [] := by simpa [Item.source] using hbehind
    have hnext : Tiling inside (start + region.length + 1) tail ps := by
      simpa [Item.source, Nat.add_assoc] using hrest
    simpa [Item.pieces, Item.source] using Tiling.bracketCut hmem hregion hend hnext

theorem of_quote (hquote : isQuote c = true) (hregion : InRegion inside region)
    (hend : EndsRegion inside tail)
    (hbehind : (Item.first c region).source ++ behind = c :: region)
    (hrest : Tiling inside (start + (Item.first c region).source.length) (behind ++ tail) ps) :
    Tiling inside start ((Item.first c region).source ++ (behind ++ tail))
      ((Item.first c region).pieces start ++ ps) := by
  by_cases hmem : c ∈ region
  · obtain ⟨body, after, rfl, hnot⟩ := List.eq_append_cons_of_mem hmem
    rw [Item.first_string hquote hnot] at hbehind hrest ⊢
    obtain rfl : behind = after := by simpa [Item.source] using hbehind
    have hbody : InRegion inside body := fun hi hin => hregion hi (List.mem_append_left _ hin)
    have hnext : Tiling inside (start + body.length + 2) (behind ++ tail) ps := by
      simpa [Item.source, Nat.add_assoc] using hrest
    simpa [Item.pieces, Item.source] using Tiling.string hquote hnot hbody hnext
  · rw [Item.first_unclosed hquote hmem] at hbehind hrest ⊢
    obtain rfl : behind = [] := by simpa [Item.source] using hbehind
    exact .unclosed hquote hmem hregion hend hrest

/-- A name and its parenthesis do not go on where a region ends. -/
theorem name_ends (hend : EndsRegion inside tail)
    (h : ∀ d ∈ behind.head?, isNameChar d = false ∧ d ≠ '(') :
    ∀ d ∈ (behind ++ tail).head?, isNameChar d = false ∧ d ≠ '(' := by
  cases behind with
  | cons e behind => exact h
  | nil =>
    intro d hd
    rcases hend with rfl | ⟨_, hhead⟩
    · exact absurd hd (Option.not_mem_none d)
    · rw [List.nil_append, hhead] at hd
      obtain rfl := Option.some.inj hd
      exact ⟨by decide, by decide⟩

theorem of_name (hrole : Role.of c = .name) (hend : EndsRegion inside tail)
    (hbehind : (Item.first c region).source ++ behind = c :: region)
    (hrest : Tiling true (start + (Item.first c region).source.length) (behind ++ tail) ps) :
    Tiling inside start ((Item.first c region).source ++ (behind ++ tail))
      ((Item.first c region).pieces start ++ ps) := by
  obtain ⟨hname, hdigit⟩ := Role.of_eq_name_iff.1 hrole
  rw [Item.first_of_role hrole, Item.ofRole] at hbehind hrest ⊢
  have hsplit := List.takeWhile_append_dropWhile (p := isNameChar) (l := region)
  have hstop := List.head?_dropWhile_not isNameChar region
  have hmore : ∀ d ∈ region.takeWhile isNameChar, isNameChar d = true := fun _ hd =>
    List.mem_takeWhile_imp hd
  generalize region.takeWhile isNameChar = more at hbehind hrest hsplit hmore ⊢
  generalize region.dropWhile isNameChar = after at hsplit hstop
  subst hsplit
  rw [List.drop_left] at hbehind hrest ⊢
  have htext : NameText (c :: more) := by
    refine ⟨List.cons_ne_nil c more, ?_, ?_⟩
    · simpa [hname] using hmore
    · simpa using hdigit
  by_cases hcall : after.head? = some '('
  · have hbeq : (after.head? == some '(') = true := beq_iff_eq.2 hcall
    obtain ⟨after, rfl⟩ := List.head?_eq_some_iff.1 hcall
    rw [hbeq] at hbehind hrest ⊢
    obtain rfl : behind = after := by simpa [Item.source] using hbehind
    have hnext : Tiling true (start + (c :: more).length + 1) (behind ++ tail) ps := by
      simpa [Item.source, Nat.add_assoc] using hrest
    simpa [Item.pieces, Item.source] using Tiling.call htext hnext
  · have hbeq : (after.head? == some '(') = false := beq_eq_false_iff_ne.2 hcall
    rw [hbeq] at hbehind hrest ⊢
    obtain rfl : behind = after := by simpa [Item.source] using hbehind
    have hlongest : ∀ d ∈ (behind ++ tail).head?, isNameChar d = false ∧ d ≠ '(' := by
      refine name_ends hend ?_
      intro d hd
      rw [Option.mem_def] at hd
      rw [hd] at hstop hcall
      exact ⟨hstop, fun hopen => hcall (congrArg some hopen)⟩
    have hnext : Tiling true (start + (c :: more).length) (behind ++ tail) ps := by
      simpa [Item.source, Nat.add_assoc] using hrest
    simpa [Item.pieces, Item.source] using Tiling.name htext hlongest hnext

/-- A tiling of what stands behind the first item is made a tiling of the whole text by the pieces of
that item. -/
theorem of_first (hclose : ¬ (inside = true ∧ c = ')')) (hregion : InRegion inside region)
    (hend : EndsRegion inside tail)
    (hrest : Tiling (inside || (Item.first c region).isName)
      (start + (Item.first c region).source.length) (Item.behind c region ++ tail) ps) :
    Tiling inside start (c :: region ++ tail) ((Item.first c region).pieces start ++ ps) := by
  have hbehind := Item.source_append_behind c region
  generalize Item.behind c region = behind at hbehind hrest
  rw [← hbehind, List.append_assoc]
  by_cases hname : Role.of c = .name
  · rw [Item.isName_first, hname, beq_self_eq_true, Bool.or_true] at hrest
    exact of_name hname hend hbehind hrest
  rw [Item.isName_first, beq_eq_false_iff_ne.2 hname, Bool.or_false] at hrest
  cases hrole : Role.of c with
  | name => exact absurd hrole hname
  | bracket =>
    obtain rfl := Role.of_eq_bracket_iff.1 hrole
    exact of_bracket hregion hend hbehind hrest
  | quote =>
    exact of_quote (isQuote_of_role hrole) hregion hend hbehind hrest
  | digit =>
    rw [Item.first_of_role hrole] at hbehind hrest ⊢
    exact of_number hrole hend hbehind hrest
  | unexpected =>
    rw [Item.first_of_role hrole] at hbehind hrest ⊢
    obtain rfl : behind = [] := by simpa [Item.ofRole, Item.source] using hbehind
    exact .dropped hrole hregion hend hrest
  | blank =>
    rw [Item.first_of_role hrole] at hrest ⊢
    exact .blank (Role.of_eq_blank_iff.1 hrole) hrest
  | operator kind =>
    rw [Item.first_of_role hrole] at hrest ⊢
    exact .symbol (.operator (Role.of_eq_operator_iff.1 hrole)) hrest
  | separator =>
    rw [Item.first_of_role hrole] at hrest ⊢
    exact .symbol .separator hrest
  | opening =>
    rw [Item.first_of_role hrole] at hrest ⊢
    exact .symbol .opening hrest
  | closing =>
    rw [Item.first_of_role hrole] at hrest ⊢
    cases inside with
    | true => exact absurd ⟨rfl, Role.of_eq_closing_iff.1 hrole⟩ hclose
    | false => exact .stray hrest

end Tiling

/-- The pieces of items that stand one behind the other from the position `start` on. -/
def piecesOf (start : Nat) : List Item → List Piece
  | [] => []
  | it :: rest => it.pieces start ++ piecesOf (start + it.source.length) rest

theorem tiling_items (inside : Bool) (start : Nat) (text : List Char) :
    Tiling inside start text (piecesOf start (items inside text)) := by
  fun_induction items inside text generalizing start with
  | case1 => exact .nil
  | case2 inside c rest h ih =>
    obtain ⟨rfl, rfl⟩ := h
    exact .closing (ih (start + 1))
  | case3 inside c rest h it ih =>
    -- The item is read in its region; the rest of the text is what it leaves of that, and the tail.
    obtain ⟨tail, htail, hregion, hend⟩ := exists_reach inside rest
    have hdrop : rest.drop (it.source.length - 1) = Item.behind c (reach inside rest) ++ tail := by
      have hle : it.source.length + _ = _ := Item.length_behind c (reach inside rest)
      conv => lhs; rw [htail]
      rw [List.drop_append_of_le_length (by omega)]
      rfl
    have hrest := ih (start + it.source.length)
    rw [hdrop] at hrest
    have htiling := Tiling.of_first h hregion hend hrest
    rw [List.cons_append, ← htail, ← hdrop] at htiling
    exact htiling

theorem filterMap_token_piecesOf (start : Nat) (its : List Item) :
    (piecesOf start its).filterMap Piece.token? = (findingsOf start its).tokens := by
  induction its generalizing start with
  | nil => rfl
  | cons it rest ih =>
    rw [piecesOf, List.filterMap_append, ih, it.filterMap_token_pieces]
    rfl

theorem filterMap_unexpected_piecesOf (start : Nat) (its : List Item) :
    (piecesOf start its).filterMap Piece.unexpected? = (findingsOf start its).unexpected := by
  induction its generalizing start with
  | nil => rfl
  | cons it rest ih =>
    rw [piecesOf, List.filterMap_append, ih, it.filterMap_unexpected_pieces]
    rfl

/-! ## What a tiling accounts for -/

namespace Tiling

variable {inside : Bool} {start : Nat} {text : List Char} {ps : List Piece}

/-- The pieces, one behind the other, are the text. -/
theorem flatMap_source (h : Tiling inside start text ps) : ps.flatMap Piece.source = text := by
  induction h with
  | nil => rfl
  | _ => simp [Piece.source, flatMap_source_columnPieces, *]

theorem source_ne_nil (h : Tiling inside start text ps) : ∀ p ∈ ps, p.source ≠ [] := by
  induction h with
  | nil =>
    intro p hp
    cases hp
  | number h _ _ ih =>
    refine List.forall_mem_cons.2 ⟨?_, ih⟩
    cases h <;> exact List.cons_ne_nil _ _
  | name h _ _ ih => exact List.forall_mem_cons.2 ⟨h.1, ih⟩
  | call h _ ih =>
    exact List.forall_mem_cons.2 ⟨h.1, List.forall_mem_cons.2 ⟨List.cons_ne_nil _ _, ih⟩⟩
  | bracket _ _ _ ih =>
    refine List.forall_mem_append.2 ⟨?_, ?_⟩
    · exact List.forall_mem_cons.2 ⟨List.cons_ne_nil _ _, source_ne_nil_columnPieces⟩
    · exact List.forall_mem_cons.2 ⟨List.cons_ne_nil _ _, ih⟩
  | bracketCut _ _ _ _ ih =>
    refine List.forall_mem_append.2 ⟨?_, ih⟩
    exact List.forall_mem_cons.2 ⟨List.cons_ne_nil _ _, source_ne_nil_columnPieces⟩
  | _ => exact List.forall_mem_cons.2 ⟨List.cons_ne_nil _ _, by assumption⟩

end Tiling

/-- A piece is the source of a token, or has an unexpected character, or neither. -/
theorem length_token_add_unexpected_le (ps : List Piece) :
    (ps.filterMap Piece.token?).length + (ps.filterMap Piece.unexpected?).length ≤ ps.length := by
  induction ps with
  | nil => exact Nat.le_refl 0
  | cons p ps ih =>
    rw [List.filterMap_cons, List.filterMap_cons]
    cases p <;> simp only [Piece.token?, Piece.unexpected?, List.length_cons] <;> omega

theorem length_le_length_flatMap {ps : List Piece} (h : ∀ p ∈ ps, p.source ≠ []) :
    ps.length ≤ (ps.flatMap Piece.source).length := by
  induction ps with
  | nil => exact Nat.le_refl 0
  | cons p ps ih =>
    obtain ⟨hp, hps⟩ := List.forall_mem_cons.1 h
    have hpos := List.length_pos_iff.2 hp
    have hle := ih hps
    rw [List.flatMap_cons, List.length_append, List.length_cons]
    omega

/-- A text has no more characters than tokens and unexpected characters are made of it. -/
theorem Tiling.length_token_add_unexpected_le {inside : Bool} {start : Nat} {text : List Char}
    {ps : List Piece} (h : Tiling inside start text ps) :
    (ps.filterMap Piece.token?).length + (ps.filterMap Piece.unexpected?).length ≤ text.length :=
  calc (ps.filterMap Piece.token?).length + (ps.filterMap Piece.unexpected?).length
      ≤ ps.length := Scan.length_token_add_unexpected_le ps
    _ ≤ (ps.flatMap Piece.source).length := length_le_length_flatMap h.source_ne_nil
    _ = text.length := by rw [h.flatMap_source]

end ColumnFormula.Scan
