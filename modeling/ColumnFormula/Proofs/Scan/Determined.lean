import ColumnFormula.Proofs.Scan.Tiling

/-!
# Tilings are determined

The rules of a tiling leave no choice: what a text begins with, and whether its region goes on, decides
which rule applies and how far its pieces go.  So a text has one tiling, the one that its items give.
-/

namespace ColumnFormula.Scan

open Text Token

/-! ## What is in reach -/

theorem reach_append_left {inside : Bool} {front : List Char} (h : InRegion inside front)
    (rest : List Char) : reach inside (front ++ rest) = front ++ reach inside rest := by
  cases inside with
  | false => rfl
  | true => exact List.takeWhile_append_of_pos (bne_of_not_mem (h rfl))

theorem inRegion_of_forall_ne {inside : Bool} {text : List Char} (h : ∀ c ∈ text, c ≠ ')') :
    InRegion inside text :=
  fun _ hmem => h _ hmem rfl

theorem inRegion_singleton {inside : Bool} {c : Char} (h : c ≠ ')') : InRegion inside [c] :=
  fun _ hmem => h (List.mem_singleton.1 hmem).symm

theorem prefix_reach (inside : Bool) (text : List Char) : reach inside text <+: text := by
  obtain ⟨tail, htail, _⟩ := exists_reach inside text
  exact ⟨tail, htail.symm⟩

theorem reach_head? {inside : Bool} {text : List Char} {c : Char}
    (h : (reach inside text).head? = some c) : text.head? = some c := by
  obtain ⟨more, hmore⟩ := List.head?_eq_some_iff.1 h
  obtain ⟨tail, htail⟩ := prefix_reach inside text
  rw [← htail, hmore]
  rfl

/-! ## Texts of tokens -/

theorem NumberText.ne_close {text : List Char} (h : NumberText text) : ∀ c ∈ text, c ≠ ')' := by
  have hdigit : ∀ c : Char, c.isDigit = true → c ≠ ')' := by
    rintro c hc rfl
    exact absurd hc (by decide)
  induction h with
  | digit h => simpa using hdigit _ h
  | digits h _ ih => exact List.forall_mem_cons.2 ⟨hdigit _ h, ih⟩
  | point h _ ih =>
    exact List.forall_mem_cons.2 ⟨hdigit _ h, List.forall_mem_cons.2 ⟨by decide, ih⟩⟩

theorem NumberText.eq_cons {text : List Char} (h : NumberText text) :
    ∃ c tail, text = c :: tail ∧ Role.of c = .digit := by
  cases h with
  | digit h => exact ⟨_, _, rfl, Role.of_eq_digit_iff.2 h⟩
  | digits h _ => exact ⟨_, _, rfl, Role.of_eq_digit_iff.2 h⟩
  | point h _ => exact ⟨_, _, rfl, Role.of_eq_digit_iff.2 h⟩

theorem NameText.ne_close {text : List Char} (h : NameText text) : ∀ c ∈ text, c ≠ ')' := by
  rintro c hc rfl
  exact absurd (h.2.1 _ hc) (by decide)

theorem NameText.eq_cons {text : List Char} (h : NameText text) :
    ∃ c tail, text = c :: tail ∧ Role.of c = .name ∧ ∀ d ∈ tail, isNameChar d = true := by
  obtain ⟨hne, hall, hdigit⟩ := h
  cases text with
  | nil => exact absurd rfl hne
  | cons c tail =>
    obtain ⟨hc, htail⟩ := List.forall_mem_cons.1 hall
    exact ⟨c, tail, rfl, Role.of_eq_name_iff.2 ⟨hc, hdigit c rfl⟩, htail⟩

theorem isLineControl_of_role {c : Char} (h : Role.of c ≠ .blank) : isLineControl c = false := by
  rw [Bool.eq_false_iff]
  intro hcontrol
  exact h (Role.of_eq_blank_iff.2 (isBlank_of_isLineControl hcontrol))

/-- A number has digits and points in it. -/
theorem NumberText.isDigit_or_point {text : List Char} (h : NumberText text) :
    ∀ c ∈ text, c.isDigit = true ∨ c = '.' := by
  induction h with
  | digit h => exact List.forall_mem_singleton.2 (Or.inl h)
  | digits h _ ih => exact List.forall_mem_cons.2 ⟨Or.inl h, ih⟩
  | point h _ ih =>
    exact List.forall_mem_cons.2 ⟨Or.inl h, List.forall_mem_cons.2 ⟨Or.inr rfl, ih⟩⟩

theorem NumberText.isLineControl {text : List Char} (h : NumberText text) :
    ∀ c ∈ text, isLineControl c = false := by
  intro c hc
  rcases h.isDigit_or_point c hc with hdigit | rfl
  · apply isLineControl_of_role
    rw [Role.of_eq_digit_iff.2 hdigit]
    exact nofun
  · decide

theorem NameText.isLineControl {text : List Char} (h : NameText text) :
    ∀ c ∈ text, isLineControl c = false := by
  intro c hc
  apply isLineControl_of_role
  intro hblank
  rw [Role.of_eq_blank_iff, (Role.of_isNameChar (h.2.1 c hc)).1] at hblank
  cases hblank

theorem isLineControl_of_operator {c : Char} {kind : Kind}
    (h : (String.singleton c, kind) ∈ Operator.table) : isLineControl c = false := by
  apply isLineControl_of_role
  rw [Role.of_eq_operator_iff.2 (Operator.kind?_eq_some_iff.2 h)]
  exact nofun

/-- A number that cannot be longer is the one that is read. -/
theorem numberTail_eq_of_longest {c : Char} {tail region rest : List Char}
    (h : NumberText (c :: tail)) (hregion : region <+: rest)
    (hlongest : ∀ more, more <+: rest → NumberText (c :: tail ++ more) → more = []) :
    numberTail (tail ++ region) = tail := by
  have hread := h.numberTail_append region
  have hnumber : NumberText (c :: tail ++ numberTail region) := by
    rw [List.cons_append, ← hread]
    exact numberText_numberTail h.head _
  have hwithin := (prefix_numberTail region).trans hregion
  rw [hread, hlongest _ hwithin hnumber, List.append_nil]

/-! ## The one tiling -/

/-- The pieces of a text are those of its first item, and those of what is behind that. -/
theorem eq_piecesOf_of_first {inside next : Bool} {start : Nat} {c : Char} {more rest : List Char}
    {it : Item} {ps : List Piece} (hclose : ¬ (inside = true ∧ c = ')'))
    (hfirst : Item.first c (reach inside more) = it) (hsource : it.source ++ rest = c :: more)
    (hnext : (inside || it.isName) = next)
    (hps : ps = piecesOf (start + it.source.length) (items next rest)) :
    it.pieces start ++ ps = piecesOf start (items inside (c :: more)) := by
  have hpos := Item.one_le_length_source_first c (reach inside more)
  have hrest : more.drop (it.source.length - 1) = rest := by
    have hdrop : (c :: more).drop it.source.length = rest := by
      rw [← hsource]
      exact List.drop_left
    rw [hfirst] at hpos
    rw [← hdrop]
    conv => rhs; rw [← Nat.sub_add_cancel hpos, List.drop_succ_cons]
  rw [items_cons hclose, hfirst, hrest, hnext, hps]
  rfl

theorem not_closing_of_role {inside : Bool} {c : Char} {role : Role} (h : Role.of c = role)
    (hrole : (role == .closing) = false) : ¬ (inside = true ∧ c = ')') := by
  rintro ⟨_, rfl⟩
  rw [← h] at hrole
  exact absurd hrole (by decide)

namespace Tiling

variable {inside : Bool} {start : Nat} {c : Char} {ps : List Piece}

theorem symbol_eq_piecesOf {token : Token} (h : SymbolToken c token) {rest : List Char}
    (hps : ps = piecesOf (start + 1) (items inside rest)) :
    .lexeme [c] token :: ps = piecesOf start (items inside (c :: rest)) := by
  cases h with
  | @operator c kind h =>
    have hrole := Role.of_eq_operator_iff.2 h
    show (Item.operator kind c).pieces start ++ ps = _
    exact eq_piecesOf_of_first (not_closing_of_role hrole rfl) (Item.first_of_role hrole _) rfl
      (Bool.or_false inside) hps
  | separator =>
    have hrole : Role.of ',' = .separator := by decide
    show Item.separator.pieces start ++ ps = _
    exact eq_piecesOf_of_first (not_closing_of_role hrole rfl) (Item.first_of_role hrole _) rfl
      (Bool.or_false inside) hps
  | opening =>
    have hrole : Role.of '(' = .opening := by decide
    show Item.opening.pieces start ++ ps = _
    exact eq_piecesOf_of_first (not_closing_of_role hrole rfl) (Item.first_of_role hrole _) rfl
      (Bool.or_false inside) hps

theorem number_eq_piecesOf {text rest : List Char} (h : NumberText text)
    (hlongest : ∀ more, more <+: rest → NumberText (text ++ more) → more = [])
    (hps : ps = piecesOf (start + text.length) (items inside rest)) :
    .lexeme text (.ofText .number (String.ofList text)) :: ps =
      piecesOf start (items inside (text ++ rest)) := by
  obtain ⟨c, tail, rfl, hrole⟩ := h.eq_cons
  have hregion : InRegion inside tail := inRegion_of_forall_ne fun d hd =>
    h.ne_close d (List.mem_cons_of_mem c hd)
  have hfirst : Item.first c (reach inside (tail ++ rest)) = .number (c :: tail) := by
    rw [reach_append_left hregion, Item.first_of_role hrole, Item.ofRole,
      numberTail_eq_of_longest h (prefix_reach inside rest) hlongest]
  show (Item.number (c :: tail)).pieces start ++ ps = _
  exact eq_piecesOf_of_first (not_closing_of_role hrole rfl) hfirst rfl (Bool.or_false inside) hps

theorem bracket_eq_piecesOf {inner rest : List Char} (h : ']' ∉ inner)
    (hregion : InRegion inside inner)
    (hps : ps = piecesOf (start + inner.length + 2) (items inside rest)) :
    .lexeme ['['] (bare .openSquareBracket) :: columnPieces (start + 1) inner ++
      .lexeme [']'] (bare .closeSquareBracket) :: ps =
      piecesOf start (items inside ('[' :: inner ++ ']' :: rest)) := by
  have hrole : Role.of '[' = .bracket := by decide
  have hclosed : InRegion inside [']'] := inRegion_singleton (by decide)
  have hreach : reach inside (inner ++ ']' :: rest) = inner ++ ']' :: reach inside rest := by
    rw [reach_append_left hregion, ← List.singleton_append, reach_append_left hclosed]
    rfl
  have hfirst : Item.first '[' (reach inside (inner ++ ']' :: rest)) = .bracket inner true := by
    rw [hreach]
    exact Item.first_bracket h _
  have hnext : ps = piecesOf (start + (Item.bracket inner true).source.length)
      (items inside rest) := by
    simpa [Item.source, Nat.add_assoc] using hps
  have hpieces : (Item.bracket inner true).pieces start ++ ps =
      piecesOf start (items inside ('[' :: (inner ++ ']' :: rest))) :=
    eq_piecesOf_of_first (not_closing_of_role hrole rfl) hfirst (by simp [Item.source])
      (Bool.or_false inside) hnext
  simpa [Item.pieces] using hpieces

theorem bracketCut_eq_piecesOf {inner rest : List Char} (h : ']' ∉ inner)
    (hregion : InRegion inside inner) (hend : EndsRegion inside rest)
    (hps : ps = piecesOf (start + inner.length + 1) (items inside rest)) :
    .lexeme ['['] (bare .openSquareBracket) :: columnPieces (start + 1) inner ++ ps =
      piecesOf start (items inside ('[' :: inner ++ rest)) := by
  have hrole : Role.of '[' = .bracket := by decide
  have hfirst : Item.first '[' (reach inside (inner ++ rest)) = .bracket inner false := by
    rw [reach_append hregion hend]
    exact Item.first_bracket_cut h
  have hnext : ps = piecesOf (start + (Item.bracket inner false).source.length)
      (items inside rest) := by
    simpa [Item.source, Nat.add_assoc] using hps
  have hpieces : (Item.bracket inner false).pieces start ++ ps =
      piecesOf start (items inside ('[' :: (inner ++ rest))) :=
    eq_piecesOf_of_first (not_closing_of_role hrole rfl) hfirst (by simp [Item.source])
      (Bool.or_false inside) hnext
  simpa [Item.pieces] using hpieces

theorem string_eq_piecesOf {quote : Char} {body rest : List Char} (hquote : isQuote quote = true)
    (h : quote ∉ body) (hregion : InRegion inside body)
    (hps : ps = piecesOf (start + body.length + 2) (items inside rest)) :
    .lexeme (quote :: body ++ [quote]) (.ofText .string (String.ofList body)) :: ps =
      piecesOf start (items inside (quote :: body ++ quote :: rest)) := by
  have hrole := role_of_isQuote hquote
  have hclosed : InRegion inside [quote] := by
    apply inRegion_singleton
    rintro rfl
    exact absurd hquote (by decide)
  have hreach : reach inside (body ++ quote :: rest) = body ++ quote :: reach inside rest := by
    rw [reach_append_left hregion, ← List.singleton_append, reach_append_left hclosed]
    rfl
  have hfirst : Item.first quote (reach inside (body ++ quote :: rest)) = .string quote body := by
    rw [hreach]
    exact Item.first_string hquote h _
  have hnext : ps = piecesOf (start + (Item.string quote body).source.length)
      (items inside rest) := by
    simpa [Item.source, Nat.add_assoc] using hps
  show (Item.string quote body).pieces start ++ ps = _
  exact eq_piecesOf_of_first (not_closing_of_role hrole rfl) hfirst (by simp [Item.source])
    (Bool.or_false inside) hnext

theorem name_eq_piecesOf {text rest : List Char} (h : NameText text)
    (hlongest : ∀ c ∈ rest.head?, isNameChar c = false ∧ c ≠ '(')
    (hps : ps = piecesOf (start + text.length) (items true rest)) :
    .lexeme text (.ofFunction (String.ofList text) ⟨start, start + text.length⟩) :: ps =
      piecesOf start (items inside (text ++ rest)) := by
  obtain ⟨c, tail, rfl, hrole, htail⟩ := h.eq_cons
  have hregion : InRegion inside tail := inRegion_of_forall_ne fun d hd =>
    h.ne_close d (List.mem_cons_of_mem c hd)
  -- The rest of the region may be empty where the text goes on, but begins as the text does.
  have hfirst : Item.first c (reach inside (tail ++ rest)) = .name (c :: tail) false := by
    rw [reach_append_left hregion]
    exact Item.first_name hrole htail fun d hd => hlongest d (reach_head? hd)
  have hnext : ps = piecesOf (start + (Item.name (c :: tail) false).source.length)
      (items true rest) := by
    simpa [Item.source] using hps
  show (Item.name (c :: tail) false).pieces start ++ ps = _
  exact eq_piecesOf_of_first (not_closing_of_role hrole rfl) hfirst (by simp [Item.source])
    (Bool.or_true inside) hnext

theorem call_eq_piecesOf {text rest : List Char} (h : NameText text)
    (hps : ps = piecesOf (start + text.length + 1) (items true rest)) :
    .lexeme text (.ofFunction (String.ofList text) ⟨start, start + text.length⟩) ::
      .lexeme ['('] (bare .openParenthesis) :: ps =
      piecesOf start (items inside (text ++ '(' :: rest)) := by
  obtain ⟨c, tail, rfl, hrole, htail⟩ := h.eq_cons
  have hregion : InRegion inside (tail ++ ['(']) := by
    apply inRegion_of_forall_ne
    intro d hd
    rcases List.mem_append.1 hd with hd | hd
    · exact h.ne_close d (List.mem_cons_of_mem c hd)
    · rw [List.mem_singleton.1 hd]
      decide
  have hreach : reach inside (tail ++ '(' :: rest) = tail ++ '(' :: reach inside rest := by
    rw [← List.singleton_append, ← List.append_assoc, reach_append_left hregion, List.append_assoc]
    rfl
  have hfirst : Item.first c (reach inside (tail ++ '(' :: rest)) = .name (c :: tail) true := by
    rw [hreach]
    exact Item.first_call hrole htail _
  have hnext : ps = piecesOf (start + (Item.name (c :: tail) true).source.length)
      (items true rest) := by
    simpa [Item.source, Nat.add_assoc] using hps
  show (Item.name (c :: tail) true).pieces start ++ ps = _
  exact eq_piecesOf_of_first (not_closing_of_role hrole rfl) hfirst (by simp [Item.source])
    (Bool.or_true inside) hnext

/-- A tiling is made of the pieces of the items of its text. -/
theorem eq_piecesOf {text : List Char} (h : Tiling inside start text ps) :
    ps = piecesOf start (items inside text) := by
  induction h with
  | nil =>
    rw [items_nil]
    rfl
  | @blank inside start c rest ps h _ ih =>
    have hrole := Role.of_eq_blank_iff.2 h
    show (Item.blank c).pieces start ++ ps = _
    exact eq_piecesOf_of_first (not_closing_of_role hrole rfl) (Item.first_of_role hrole _) rfl
      (Bool.or_false inside) ih
  | symbol h _ ih => exact symbol_eq_piecesOf h ih
  | closing _ ih =>
    rw [items_closing, ih]
    rfl
  | @stray start rest ps _ ih =>
    have hrole : Role.of ')' = .closing := by decide
    show (Item.closing false).pieces start ++ ps = _
    exact eq_piecesOf_of_first (fun h => Bool.false_ne_true h.1) (Item.first_of_role hrole _) rfl
      rfl ih
  | number h hlongest _ ih => exact number_eq_piecesOf h hlongest ih
  | bracket h hregion _ ih => exact bracket_eq_piecesOf h hregion ih
  | bracketCut h hregion hend _ ih => exact bracketCut_eq_piecesOf h hregion hend ih
  | string hquote h hregion _ ih => exact string_eq_piecesOf hquote h hregion ih
  | @unclosed inside start quote body rest ps hquote h hregion hend _ ih =>
    have hfirst : Item.first quote (reach inside (body ++ rest)) = .unclosed quote body := by
      rw [reach_append hregion hend]
      exact Item.first_unclosed hquote h
    show (Item.unclosed quote body).pieces start ++ ps = _
    exact eq_piecesOf_of_first (not_closing_of_role (role_of_isQuote hquote) rfl) hfirst rfl
      (Bool.or_false inside) ih
  | name h hlongest _ ih => exact name_eq_piecesOf h hlongest ih
  | call h _ ih => exact call_eq_piecesOf h ih
  | @dropped inside start c body rest ps h hregion hend _ ih =>
    have hfirst : Item.first c (reach inside (body ++ rest)) = .dropped c body := by
      rw [reach_append hregion hend]
      exact Item.first_of_role h body
    show (Item.dropped c body).pieces start ++ ps = _
    exact eq_piecesOf_of_first (not_closing_of_role h rfl) hfirst rfl (Bool.or_false inside) ih

end Tiling

/-- The rules of a tiling leave no choice: the items of a text give its one tiling. -/
theorem tiling_iff {inside : Bool} {start : Nat} {text : List Char} {ps : List Piece} :
    Tiling inside start text ps ↔ ps = piecesOf start (items inside text) := by
  constructor
  · exact Tiling.eq_piecesOf
  · rintro rfl
    exact tiling_items inside start text

end ColumnFormula.Scan
