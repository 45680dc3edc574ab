import ColumnFormula.Proofs.Scan.Determined
import ColumnFormula.Proofs.Scan.Place

/-!
# Pieces and the stream they give

What the rules of a tiling let be said of its pieces without going through the rules again: which
pieces there are, taken one by one (`Tiling.occurs`), and with which token the stream of a tiling
begins (`Tiling.kind_head`, and `Tiling.kind_head_of_endsRegion` where a region ends).  Whatever
holds between neighbours in a stream comes from these two, for a rule knows its own tokens and the
next one is the first of what is tiled behind them.
-/

namespace ColumnFormula.Scan

open Text Token

/-! ## The pieces, one by one -/

/-- Whether the piece is a function's name. -/
def Piece.isFunction : Piece → Bool
  | lexeme _ token => token.kind == .function
  | _ => false

/-- The parenthesis that ends a function's arguments. -/
def Piece.argumentsEnd : Piece :=
  .lexeme [')'] (bare .closeParenthesis)

/-- The pieces that tilings are made of, wherever they stand. -/
inductive Piece.Occurs : Piece → Prop
  | blank {c : Char} (h : isBlank c = true) : Occurs (.blank c)
  | symbol {c : Char} {token : Token} (h : SymbolToken c token) : Occurs (.lexeme [c] token)
  | closing : Occurs (.lexeme [')'] (bare .closeParenthesis))
  | stray : Occurs (.lexeme [')'] (bare .openParenthesis))
  | number {text : List Char} (h : NumberText text) :
      Occurs (.lexeme text (.ofText .number (String.ofList text)))
  | openBracket : Occurs (.lexeme ['['] (bare .openSquareBracket))
  | column {start : Nat} {inner : List Char} (hne : inner ≠ []) (h : ']' ∉ inner) :
      Occurs (.lexeme inner (.ofColumn (.ofChars inner) ⟨start, start + inner.length⟩))
  | closeBracket : Occurs (.lexeme [']'] (bare .closeSquareBracket))
  | string {quote : Char} {body : List Char} (hquote : isQuote quote = true) (h : quote ∉ body) :
      Occurs (.lexeme (quote :: body ++ [quote]) (.ofText .string (String.ofList body)))
  | unclosed {quote : Char} {body : List Char} (hquote : isQuote quote = true) (h : quote ∉ body) :
      Occurs (.unclosed quote body)
  | name {start : Nat} {text : List Char} (h : NameText text) :
      Occurs (.lexeme text (.ofFunction (String.ofList text) ⟨start, start + text.length⟩))
  | call : Occurs (.lexeme ['('] (bare .openParenthesis))
  | dropped {c : Char} {position : Nat} {body : List Char} (h : Role.of c = .unexpected) :
      Occurs (.dropped c position body)

theorem occurs_columnPieces {start : Nat} {inner : List Char} (h : ']' ∉ inner) :
    ∀ p ∈ columnPieces start inner, p.Occurs := by
  intro p hp
  obtain ⟨hne, rfl⟩ := mem_columnPieces.1 hp
  exact .column hne h

theorem Tiling.occurs {inside : Bool} {start : Nat} {text : List Char} {ps : List Piece}
    (h : Tiling inside start text ps) : ∀ p ∈ ps, p.Occurs := by
  induction h with
  | nil => exact fun _ hp => absurd hp List.not_mem_nil
  | blank h _ ih => exact List.forall_mem_cons.2 ⟨.blank h, ih⟩
  | symbol h _ ih => exact List.forall_mem_cons.2 ⟨.symbol h, ih⟩
  | closing _ ih => exact List.forall_mem_cons.2 ⟨.closing, ih⟩
  | stray _ ih => exact List.forall_mem_cons.2 ⟨.stray, ih⟩
  | number h _ _ ih => exact List.forall_mem_cons.2 ⟨.number h, ih⟩
  | bracket h _ _ ih =>
    refine List.forall_mem_append.2 ⟨?_, List.forall_mem_cons.2 ⟨.closeBracket, ih⟩⟩
    exact List.forall_mem_cons.2 ⟨.openBracket, occurs_columnPieces h⟩
  | bracketCut h _ _ _ ih =>
    refine List.forall_mem_append.2 ⟨?_, ih⟩
    exact List.forall_mem_cons.2 ⟨.openBracket, occurs_columnPieces h⟩
  | string hquote h _ _ ih => exact List.forall_mem_cons.2 ⟨.string hquote h, ih⟩
  | unclosed hquote h _ _ _ ih => exact List.forall_mem_cons.2 ⟨.unclosed hquote h, ih⟩
  | name h _ _ ih => exact List.forall_mem_cons.2 ⟨.name h, ih⟩
  | call h _ ih => exact List.forall_mem_cons.2 ⟨.name h, List.forall_mem_cons.2 ⟨.call, ih⟩⟩
  | dropped h _ _ _ ih => exact List.forall_mem_cons.2 ⟨.dropped h, ih⟩

/-! ## The stream -/

/-- The tokens of the pieces and the end of the input. -/
def stream (ps : List Piece) : List Token :=
  ps.filterMap Piece.token? ++ [endOfInput]

theorem tokens_tokenize_eq_stream (expression : String) (offset : Nat) :
    (tokenize expression offset).tokens =
      (stream (piecesOf 0 (items false (strip expression.toList)))).map
        (relocate (reportedSpan expression.toList offset)) := by
  rw [tokens_tokenize, stream, filterMap_token_piecesOf, List.map_append]
  rfl

/-- A scan tells what is in the one tiling of the text without line controls, and where it stands, if
words hold all positions of the expression. -/
theorem exists_tiling_tokenize {expression : String} {offset : Nat}
    (hfits : offset + expression.length < positionLimit) :
    ∃ ps, (∀ qs, Tiling false 0 (strip expression.toList) qs ↔ qs = ps) ∧
      (tokenize expression offset).tokens =
        (ps.filterMap Piece.token?).map (relocate (sourceSpan expression.toList offset)) ++
          [endOfInput] ∧
      (tokenize expression offset).diagnostics =
        (ps.filterMap Piece.unexpected?).map fun (c, position) =>
          ⟨c, expression, offset + sourceIndex expression.toList position⟩ := by
  refine ⟨_, fun _ => tiling_iff, ?_, ?_⟩
  · rw [tokens_tokenize_of_lt hfits, filterMap_token_piecesOf]
  · rw [diagnostics_tokenize_of_lt hfits, filterMap_unexpected_piecesOf]

/-- The source of a token in front makes that token the first of the stream. -/
theorem head_stream_lexeme {P : Token → Prop} {token : Token} (h : P token) (source : List Char)
    (ps : List Piece) : ∀ t ∈ (stream (.lexeme source token :: ps)).head?, P t := by
  intro t ht
  obtain rfl := Option.some.inj ht
  exact h

namespace Tiling

variable {inside : Bool} {start : Nat} {text : List Char} {ps : List Piece}

/-- A stream begins neither with a column nor with a closing bracket, and where a function waits for
the end of its arguments not with an opening parenthesis either. -/
theorem kind_head (h : Tiling inside start text ps) : ∀ t ∈ (stream ps).head?,
    t.kind ≠ .column ∧ t.kind ≠ .closeSquareBracket ∧
      (inside = true → t.kind ≠ .openParenthesis) := by
  induction h with
  | nil =>
    intro t ht
    obtain rfl := Option.some.inj ht
    exact ⟨nofun, nofun, fun _ => nofun⟩
  | blank _ _ ih | unclosed _ _ _ _ _ ih | dropped _ _ _ _ ih => exact ih
  | symbol h _ _ =>
    have hkind : ∀ kind ∈ symbolKinds, kind ≠ .column ∧ kind ≠ .closeSquareBracket ∧
        kind ≠ .openParenthesis := by decide
    obtain ⟨hcolumn, hbracket, hopen⟩ := hkind _ h.kind_mem
    exact head_stream_lexeme ⟨hcolumn, hbracket, fun _ => hopen⟩ _ _
  | stray _ _ => exact head_stream_lexeme ⟨nofun, nofun, fun h => absurd h Bool.false_ne_true⟩ _ _
  | _ => exact head_stream_lexeme ⟨nofun, nofun, fun _ => nofun⟩ _ _

/-- The first piece of a tiling begins as the text does. -/
theorem head?_source (h : Tiling inside start text ps) :
    ∀ q ∈ ps.head?, q.source.head? = text.head? := by
  intro q hq
  obtain ⟨ps, rfl⟩ := List.head?_eq_some_iff.1 hq
  obtain ⟨c, more, hsource⟩ := List.exists_cons_of_ne_nil (h.source_ne_nil q List.mem_cons_self)
  rw [← h.flatMap_source, List.flatMap_cons, hsource]
  rfl

/-- Where a region ends, a tiling goes on with the parenthesis that ends it or ends itself. -/
theorem head_of_endsRegion (h : Tiling inside start text ps) (hend : EndsRegion inside text) :
    ∀ q ∈ ps.head?, q = Piece.argumentsEnd := by
  rw [h.eq_piecesOf]
  rcases hend with rfl | ⟨rfl, hhead⟩
  · rw [items_nil]
    intro q hq
    cases hq
  · obtain ⟨rest, rfl⟩ := List.head?_eq_some_iff.1 hhead
    rw [items_closing]
    intro q hq
    exact (Option.some.inj hq).symm

/-- Where a region ends, the stream goes on with a closing parenthesis or ends. -/
theorem kind_head_of_endsRegion (h : Tiling inside start text ps) (hend : EndsRegion inside text) :
    ∀ t ∈ (stream ps).head?, t.kind = .closeParenthesis ∨ t.kind = .endOfInput := by
  cases ps with
  | nil =>
    intro t ht
    obtain rfl := Option.some.inj ht
    exact Or.inr rfl
  | cons q ps =>
    obtain rfl := h.head_of_endsRegion hend q rfl
    exact head_stream_lexeme (Or.inl rfl) _ _

end Tiling

end ColumnFormula.Scan
