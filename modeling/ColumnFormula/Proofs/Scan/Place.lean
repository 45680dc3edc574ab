import ColumnFormula.Proofs.Scan.Tiling
import ColumnFormula.Proofs.Token.Relocation

/-!
# Places of tokens

The tokens that know their place are functions and columns, and the place is that of the piece which
is their source: a function's name, or all that stands between two brackets.
-/

namespace ColumnFormula

/-- Whether the token is one that knows its place. -/
def Token.isMarked (t : Token) : Bool :=
  t.kind == .column || t.kind == .function

theorem Token.isMarked_relocate (move : Span → Span) (t : Token) :
    (t.relocate move).isMarked = t.isMarked := by
  rw [isMarked, isMarked, kind_relocate]

namespace Scan

open Text Token

/-- All that stands between an opening bracket and the closing one, or the end of the region if there
is none before that. -/
def BracketText (before inner after : List Char) : Prop :=
  ['['] <:+ before ∧ ']' ∉ inner ∧
    (after.head? = some ']' ∨ after = [] ∨ (after.head? = some ')' ∧ ')' ∉ inner))

/-- A token made of the stretch `source`, which starts at `position` and has `before` in front of it
and `after` behind it.  Only a function and a column know their place, and it is that stretch. -/
inductive TokenAt (position : Nat) (before source after : List Char) : Token → Prop
  | placeless {token : Token} (hspan : token.span? = none) (hmarked : token.isMarked = false) :
      TokenAt position before source after token
  | function : TokenAt position before source after
      (.ofFunction (String.ofList source) ⟨position, position + source.length⟩)
  | column (h : BracketText before source after) : TokenAt position before source after
      (.ofColumn (.ofChars source) ⟨position, position + source.length⟩)

/-- The token is made of a stretch of the text, which itself stands at the position `start`. -/
def TokenIn (start : Nat) (text source : List Char) (token : Token) : Prop :=
  ∃ before after, text = before ++ source ++ after ∧
    TokenAt (start + before.length) before source after token

theorem TokenIn.append_left {start : Nat} {text source : List Char} {token : Token}
    (front : List Char) (h : TokenIn (start + front.length) text source token) :
    TokenIn start (front ++ text) source token := by
  obtain ⟨before, after, rfl, hat⟩ := h
  refine ⟨front ++ before, after, by simp, ?_⟩
  rw [List.length_append, ← Nat.add_assoc]
  cases hat with
  | placeless hspan hmarked => exact .placeless hspan hmarked
  | function => exact .function
  | column h => exact .column ⟨h.1.trans (List.suffix_append front before), h.2⟩

/-- The token is made of the first piece of a tiling, or of one behind it. -/
theorem TokenIn.of_mem_cons {start : Nat} {rest source : List Char} {token : Token} {p : Piece}
    {ps : List Piece} (front : List Char) (hp : Piece.lexeme source token ∈ p :: ps)
    (hhead : p = .lexeme source token → source = front ∧ TokenAt start [] source rest token)
    (htail : Piece.lexeme source token ∈ ps → TokenIn (start + front.length) rest source token) :
    TokenIn start (front ++ rest) source token := by
  rcases List.mem_cons.1 hp with heq | hp
  · obtain ⟨rfl, hat⟩ := hhead heq.symm
    exact ⟨[], rest, rfl, hat⟩
  · exact (htail hp).append_left front

theorem SymbolToken.isMarked {c : Char} {token : Token} (h : SymbolToken c token) :
    token.isMarked = false := by
  have hkind : ∀ kind ∈ symbolKinds, (kind == .column || kind == .function) = false := by decide
  exact hkind _ h.kind_mem

theorem SymbolToken.span?_eq_none {c : Char} {token : Token} (h : SymbolToken c token) :
    token.span? = none := by
  cases h <;> rfl

theorem SymbolToken.tokenAt {c : Char} {token : Token} (h : SymbolToken c token) (position : Nat)
    (before after : List Char) : TokenAt position before [c] after token :=
  .placeless h.span?_eq_none h.isMarked

/-- An opening bracket and the column behind it are in the text that they stand in. -/
theorem tokenIn_bracket {start : Nat} {inner after source : List Char} {token : Token}
    (h : BracketText ['['] inner after) (hp : Piece.lexeme source token ∈
      Piece.lexeme ['['] (bare .openSquareBracket) :: columnPieces (start + 1) inner) :
    TokenIn start ('[' :: inner ++ after) source token := by
  rcases List.mem_cons.1 hp with heq | hp
  · obtain ⟨rfl, rfl⟩ := Piece.lexeme.inj heq
    exact ⟨[], inner ++ after, rfl, .placeless rfl rfl⟩
  · obtain ⟨rfl, rfl⟩ := Piece.lexeme.inj (mem_columnPieces.1 hp).2
    exact ⟨['['], after, rfl, .column h⟩

namespace Tiling

/-- Every token of a tiling is made of the stretch of the text that is its source. -/
theorem tokenIn {inside : Bool} {start : Nat} {text : List Char} {ps : List Piece}
    (h : Tiling inside start text ps) {source : List Char} {token : Token}
    (hp : Piece.lexeme source token ∈ ps) : TokenIn start text source token := by
  -- The token of a piece that is no name and no column does not know its place.
  have bare_at : ∀ {position : Nat} {piece after : List Char} {t : Token}, t.span? = none →
      t.isMarked = false → Piece.lexeme piece t = .lexeme source token →
      source = piece ∧ TokenAt position [] source after token := by
    intro position piece after t hspan hmarked heq
    obtain ⟨rfl, rfl⟩ := Piece.lexeme.inj heq
    exact ⟨rfl, .placeless hspan hmarked⟩
  induction h with
  | nil => exact absurd hp List.not_mem_nil
  | @blank _ _ c _ _ _ _ ih =>
    refine .of_mem_cons [c] hp ?_ ih
    intro heq
    cases heq
  | @symbol _ _ c _ _ _ h _ ih =>
    refine .of_mem_cons [c] hp ?_ ih
    intro heq
    obtain ⟨rfl, rfl⟩ := Piece.lexeme.inj heq
    exact ⟨rfl, h.tokenAt _ _ _⟩
  | closing _ ih => exact .of_mem_cons [')'] hp (bare_at rfl rfl) ih
  | stray _ ih => exact .of_mem_cons [')'] hp (bare_at rfl rfl) ih
  | @number _ _ text _ _ _ _ _ ih => exact .of_mem_cons text hp (bare_at rfl rfl) ih
  | @bracket _ start inner rest _ h _ _ ih =>
    -- Up to three tokens come from one bracket: two in front of its end, and its end.
    rcases List.mem_append.1 hp with hp | hp
    · exact tokenIn_bracket ⟨List.suffix_refl _, h, Or.inl rfl⟩ hp
    · have hclose : TokenIn (start + ('[' :: inner).length) (']' :: rest) source token :=
        .of_mem_cons [']'] hp (bare_at rfl rfl) ih
      exact hclose.append_left ('[' :: inner)
  | @bracketCut _ _ inner _ _ h hregion hend _ ih =>
    rcases List.mem_append.1 hp with hp | hp
    · refine tokenIn_bracket ⟨List.suffix_refl _, h, Or.inr (hend.imp id ?_)⟩ hp
      exact fun hclose => ⟨hclose.2, hregion hclose.1⟩
    · exact (ih hp).append_left ('[' :: inner)
  | @string _ start quote body rest _ _ _ _ _ ih =>
    have hstring : TokenIn start ((quote :: body ++ [quote]) ++ rest) source token := by
      refine .of_mem_cons (quote :: body ++ [quote]) hp (bare_at rfl rfl) ?_
      simpa [Nat.add_assoc] using ih
    simpa using hstring
  | @unclosed _ _ quote body _ _ _ _ _ _ _ ih =>
    refine .of_mem_cons (quote :: body) hp ?_ ih
    intro heq
    cases heq
  | @name _ _ text _ _ _ _ _ ih =>
    refine .of_mem_cons text hp ?_ ih
    intro heq
    obtain ⟨rfl, rfl⟩ := Piece.lexeme.inj heq
    exact ⟨rfl, .function⟩
  | @call _ _ text rest _ _ _ ih =>
    refine .of_mem_cons text hp ?_ ?_
    · intro heq
      obtain ⟨rfl, rfl⟩ := Piece.lexeme.inj heq
      exact ⟨rfl, .function⟩
    · intro hp
      exact .of_mem_cons ['('] hp (bare_at rfl rfl) ih
  | @dropped _ _ c body _ _ _ _ _ _ ih =>
    refine .of_mem_cons (c :: body) hp ?_ ih
    intro heq
    cases heq

end Tiling

/-- An unexpected character is a character of the text. -/
theorem lt_of_mem_unexpected {base : Nat} {its : List Item} {c : Char} {position : Nat}
    (h : (c, position) ∈ (findingsOf base its).unexpected) :
    position < base + (its.flatMap Item.source).length := by
  induction its generalizing base with
  | nil => exact absurd h List.not_mem_nil
  | cons it rest ih =>
    rw [findingsOf, Findings.unexpected_append, List.mem_append] at h
    rw [List.flatMap_cons, List.length_append]
    rcases h with h | h
    · have hdropped : position = base ∧ 0 < it.source.length := by
        cases it with
        | dropped d more =>
          obtain ⟨_, rfl⟩ := Prod.mk.inj (List.mem_singleton.1 h)
          exact ⟨rfl, Nat.succ_pos _⟩
        | _ => cases h
      omega
    · have := ih h
      omega

/-- A place in a text is not empty, and does not go beyond the text. -/
theorem TokenIn.span_le {start : Nat} {text source : List Char} {token : Token} {span : Span}
    (h : TokenIn start text source token) (hne : source ≠ []) (hspan : token.span? = some span) :
    start ≤ span.start ∧ span.start < span.stop ∧ span.stop ≤ start + text.length := by
  obtain ⟨before, after, rfl, hat⟩ := h
  have hpos := List.length_pos_iff.2 hne
  have heq : span = ⟨start + before.length, start + before.length + source.length⟩ := by
    cases hat with
    | placeless hnone =>
      rw [hnone] at hspan
      cases hspan
    | function => exact (Option.some.inj hspan).symm
    | column => exact (Option.some.inj hspan).symm
  rw [heq]
  simp only [List.length_append]
  omega

/-- The place of a token that is found in a text is not empty, and lies within the text. -/
theorem span_of_mem_tokens {inside : Bool} {text : List Char} {token : Token} {span : Span}
    (h : token ∈ (findingsOf 0 (items inside text)).tokens) (hspan : token.span? = some span) :
    span.start < span.stop ∧ span.stop ≤ text.length := by
  rw [← filterMap_token_piecesOf] at h
  obtain ⟨p, hp, htoken⟩ := List.mem_filterMap.1 h
  have htiling := tiling_items inside 0 text
  cases p with
  | lexeme source t =>
    obtain rfl : t = token := Option.some.inj htoken
    obtain ⟨_, hlt, hle⟩ := (htiling.tokenIn hp).span_le (htiling.source_ne_nil _ hp) hspan
    exact ⟨hlt, by omega⟩
  | _ => cases htoken

/-- In a text without line controls every place is where it is found. -/
theorem relocate_of_mem_tokens {text : List Char} {token : Token}
    (h : token ∈ (findingsOf 0 (items false (strip text))).tokens) :
    token.relocate (sourceSpan (strip text) 0) = token := by
  apply relocate_eq_self
  intro span hspan
  obtain ⟨hlt, hle⟩ := span_of_mem_tokens h hspan
  have hstart : sourceIndex (strip text) span.start = span.start := sourceIndex_strip (by omega)
  have hstop : sourceIndex (strip text) (span.stop - 1) = span.stop - 1 :=
    sourceIndex_strip (by omega)
  show (⟨0 + _, 0 + _ + 1⟩ : Span) = span
  rw [hstart, hstop, Nat.zero_add, Nat.zero_add, Nat.sub_add_cancel (by omega)]

/-! ## Positions that words hold -/

variable {text : List Char} {offset : Nat}

/-- Tokens are reported where they stand if words hold all positions of the text. -/
theorem map_relocate_reportedSpan (hfits : offset + text.length < positionLimit) :
    (findingsOf 0 (items false (strip text))).tokens.map (relocate (reportedSpan text offset)) =
      (findingsOf 0 (items false (strip text))).tokens.map (relocate (sourceSpan text offset)) := by
  apply List.map_congr_left
  intro token htoken
  apply relocate_congr
  intro span hspan
  obtain ⟨hlt, hle⟩ := span_of_mem_tokens htoken hspan
  exact reportedSpan_eq hlt hle hfits

/-- So are unexpected characters. -/
theorem wrap_of_mem_unexpected {c : Char} {position : Nat}
    (h : (c, position) ∈ (findingsOf 0 (items false (strip text))).unexpected)
    (hfits : offset + text.length < positionLimit) :
    wrap (offset + sourceIndex text position) = offset + sourceIndex text position := by
  have hlt := lt_of_mem_unexpected h
  rw [flatMap_source_items, Nat.zero_add] at hlt
  have hindex := sourceIndex_lt hlt
  exact wrap_of_lt (by omega)

end Scan

open Scan Text Token

variable {expression : String} {offset : Nat}

/-- A scan tells what is found in the items, and where it stands, if words hold all positions of the
expression. -/
theorem tokenize_eq_items_of_lt (hfits : offset + expression.length < positionLimit) :
    let found := findingsOf 0 (items false (strip expression.toList))
    tokenize expression offset =
      ⟨found.tokens.map (relocate (sourceSpan expression.toList offset)) ++ [endOfInput],
        found.unexpected.map fun (c, position) =>
          ⟨c, expression, offset + sourceIndex expression.toList position⟩⟩ := by
  intro found
  rw [← String.length_toList] at hfits
  rw [tokenize_eq_items, map_relocate_reportedSpan hfits]
  refine congrArg (Scan.mk _) (List.map_congr_left ?_)
  rintro ⟨c, position⟩ hmem
  show (⟨c, expression, wrap _⟩ : Diagnostic) = _
  rw [wrap_of_mem_unexpected hmem hfits]

theorem tokens_tokenize_of_lt (hfits : offset + expression.length < positionLimit) :
    (tokenize expression offset).tokens =
      (findingsOf 0 (items false (strip expression.toList))).tokens.map
        (relocate (sourceSpan expression.toList offset)) ++ [endOfInput] :=
  congrArg Scan.tokens (tokenize_eq_items_of_lt hfits)

theorem diagnostics_tokenize_of_lt (hfits : offset + expression.length < positionLimit) :
    (tokenize expression offset).diagnostics =
      (findingsOf 0 (items false (strip expression.toList))).unexpected.map fun (c, position) =>
        ⟨c, expression, offset + sourceIndex expression.toList position⟩ :=
  congrArg Scan.diagnostics (tokenize_eq_items_of_lt hfits)

/-- A scan finds in an expression what the nested scan finds in its text without the line controls:
the same tokens and the same unexpected characters, each position moved to the place in the
expression where its character stands.  The positions are those that words hold, and so the places
themselves if words hold all positions of the expression. -/
theorem tokenize_eq_nested (expression : String) (offset : Nat) :
    let found := nested 0 (strip expression.toList)
    tokenize expression offset =
        ⟨found.tokens.map (relocate (reportedSpan expression.toList offset)) ++ [endOfInput],
          found.unexpected.map fun (c, position) =>
            ⟨c, expression, wrap (offset + sourceIndex expression.toList position)⟩⟩ ∧
      (offset + expression.length < positionLimit →
        tokenize expression offset =
          ⟨found.tokens.map (relocate (sourceSpan expression.toList offset)) ++ [endOfInput],
            found.unexpected.map fun (c, position) =>
              ⟨c, expression, offset + sourceIndex expression.toList position⟩⟩) := by
  intro found
  refine ⟨tokenize_eq_reported expression offset, fun hfits => ?_⟩
  have hfound : found = findingsOf 0 (items false (strip expression.toList)) := nested_eq_items 0 _
  rw [tokenize_eq_items_of_lt hfits, hfound]

/-- The greatest offset at which words hold all positions of a call with a tab in it. -/
theorem tokenize_eq_nested_call :
    18446744073709551610 + "f\t(#)".length < positionLimit ∧
      let found := nested 0 (strip "f\t(#)".toList)
      tokenize "f\t(#)" 18446744073709551610 =
        ⟨found.tokens.map (relocate (sourceSpan "f\t(#)".toList 18446744073709551610)) ++ [endOfInput],
          found.unexpected.map fun (c, position) =>
            ⟨c, "f\t(#)", 18446744073709551610 + sourceIndex "f\t(#)".toList position⟩⟩ := by
  have hfits : 18446744073709551610 + "f\t(#)".length < positionLimit := by decide
  exact ⟨hfits, (tokenize_eq_nested "f\t(#)" 18446744073709551610).2 hfits⟩

/-! ## Line controls and the offset -/

theorem map_relocate_tokens (text : List Char) :
    (findingsOf 0 (items false (strip text))).tokens.map (relocate (sourceSpan (strip text) 0)) =
      (findingsOf 0 (items false (strip text))).tokens := by
  rw [List.map_congr_left fun token htoken => relocate_of_mem_tokens htoken, List.map_id']

theorem length_strip_le (text : List Char) : (strip text).length ≤ text.length :=
  List.length_filter_le _ _

/-- What is scanned of an expression is its text without the line controls. -/
theorem tokenize_strip (expression : String) (hfits : expression.length < positionLimit) :
    let found := findingsOf 0 (items false (strip expression.toList))
    let plain := String.ofList (strip expression.toList)
    tokenize plain 0 =
      ⟨found.tokens ++ [endOfInput],
        found.unexpected.map fun (c, position) => ⟨c, plain, position⟩⟩ := by
  intro found plain
  have hown : plain.toList = strip expression.toList := String.toList_ofList
  have hplain : strip plain.toList = strip expression.toList := by rw [hown, strip_strip]
  have hshort : 0 + plain.length < positionLimit := by
    have hle := length_strip_le expression.toList
    rw [String.length_toList] at hle
    rw [Nat.zero_add, ← String.length_toList, hown]
    exact Nat.lt_of_le_of_lt hle hfits
  have hplaced : ∀ m ∈ found.unexpected, (⟨m.1, plain, 0 + sourceIndex plain.toList m.2⟩ : Diagnostic) =
      ⟨m.1, plain, m.2⟩ := by
    rintro ⟨c, position⟩ hmem
    have hlt := lt_of_mem_unexpected hmem
    rw [flatMap_source_items, Nat.zero_add] at hlt
    show (⟨c, plain, 0 + _⟩ : Diagnostic) = ⟨c, plain, position⟩
    rw [hown, sourceIndex_strip hlt, Nat.zero_add]
  rw [tokenize_eq_items_of_lt hshort, hplain, List.map_congr_left hplaced, hown, map_relocate_tokens]

/-- The kinds and values of the tokens are found in the text without the line controls. -/
theorem map_kind_value_tokenize (expression : String) (offset : Nat) :
    (tokenize expression offset).tokens.map (fun t => (t.kind, t.value)) =
      ((findingsOf 0 (items false (strip expression.toList))).tokens ++ [endOfInput]).map
        fun t => (t.kind, t.value) := by
  rw [tokens_tokenize, List.map_append, List.map_append, List.map_map]
  refine congrArg (· ++ _) (List.map_congr_left ?_)
  intro t _
  show ((t.relocate _).kind, (t.relocate _).value) = _
  rw [kind_relocate, value_relocate]

/-- The line controls of an expression and the offset it stands at move places and do nothing else.
Where words hold all its positions, the tokens and warnings are those of the text without line
controls, each moved to where its characters stand; so they are those of the expression at the offset
zero moved by the offset.  And at whatever offset, an expression with the same text has the same tokens
and warnings but for their places. -/
theorem tokenize_translates (expression : String) (offset : Nat) :
    let scan := tokenize expression offset
    let plain := tokenize (String.ofList (strip expression.toList)) 0
    let unmoved := tokenize expression 0
    (offset + expression.length < positionLimit →
      (scan.tokens = plain.tokens.map (relocate (sourceSpan expression.toList offset)) ∧
        scan.diagnostics = plain.diagnostics.map fun d =>
          ⟨d.character, expression, offset + sourceIndex expression.toList d.position⟩) ∧
      (scan.tokens = unmoved.tokens.map
          (relocate fun span => ⟨offset + span.start, offset + span.stop⟩) ∧
        scan.diagnostics =
          unmoved.diagnostics.map fun d => { d with position := offset + d.position })) ∧
    ∀ (other : String) (otherOffset : Nat), strip other.toList = strip expression.toList →
      (tokenize other otherOffset).tokens.map (fun t => (t.kind, t.value)) =
          scan.tokens.map (fun t => (t.kind, t.value)) ∧
        (tokenize other otherOffset).diagnostics.map (·.character) =
          scan.diagnostics.map (·.character) := by
  intro scan plain unmoved
  refine ⟨fun hfits => ?_, ?_⟩
  · have hshort : 0 + expression.length < positionLimit := by omega
    have htokens : scan.tokens = _ := tokens_tokenize_of_lt hfits
    have hdiagnostics : scan.diagnostics = _ := diagnostics_tokenize_of_lt hfits
    have hplain : plain = _ := tokenize_strip expression (by omega)
    refine ⟨⟨?_, ?_⟩, ⟨?_, ?_⟩⟩
    · rw [htokens, hplain, List.map_append]
      rfl
    · rw [hdiagnostics, hplain, List.map_map]
      rfl
    · have hunmoved : unmoved.tokens = _ := tokens_tokenize_of_lt hshort
      have hmove : (fun span => ⟨offset + span.start, offset + span.stop⟩) ∘
          sourceSpan expression.toList 0 = sourceSpan expression.toList offset := by
        funext span
        simp [sourceSpan, Nat.add_assoc]
      rw [htokens, hunmoved, List.map_append, List.map_map]
      refine congrArg (· ++ _) (List.map_congr_left ?_)
      intro t _
      show _ = (t.relocate _).relocate _
      rw [relocate_relocate, hmove]
    · have hunmoved : unmoved.diagnostics = _ := diagnostics_tokenize_of_lt hshort
      rw [hdiagnostics, hunmoved, List.map_map]
      apply List.map_congr_left
      rintro ⟨c, position⟩ _
      simp
  · intro other otherOffset hother
    constructor
    · show _ = (tokenize expression offset).tokens.map _
      rw [map_kind_value_tokenize, map_kind_value_tokenize, hother]
    · have hdiagnostics : scan.diagnostics = _ := diagnostics_tokenize expression offset
      rw [hdiagnostics, diagnostics_tokenize, hother, List.map_map, List.map_map]
      rfl

/-- Line controls inside a name and inside brackets change neither tokens nor warnings, and an offset
moves them. -/
theorem tokenize_translates_tab :
    strip "s\tum([a]) ?".toList = strip "sum([\na]) ?".toList ∧
      ((tokenize "s\tum([a]) ?" 3).tokens.map (fun t => (t.kind, t.value)) =
          (tokenize "sum([\na]) ?" 0).tokens.map (fun t => (t.kind, t.value)) ∧
        (tokenize "s\tum([a]) ?" 3).diagnostics.map (·.character) =
          (tokenize "sum([\na]) ?" 0).diagnostics.map (·.character)) ∧
      3 + "s\tum([a]) ?".length < positionLimit ∧
      (tokenize "s\tum([a]) ?" 3).tokens = (tokenize "s\tum([a]) ?" 0).tokens.map
        (relocate fun span => ⟨3 + span.start, 3 + span.stop⟩) := by
  have hstrip : strip "s\tum([a]) ?".toList = strip "sum([\na]) ?".toList := by decide
  have hfits : 3 + "s\tum([a]) ?".length < positionLimit := by decide
  exact ⟨hstrip, (tokenize_translates "sum([\na]) ?" 0).2 "s\tum([a]) ?" 3 hstrip, hfits,
    ((tokenize_translates "s\tum([a]) ?" 3).1 hfits).2.1⟩

end ColumnFormula
