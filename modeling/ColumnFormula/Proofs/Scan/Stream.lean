import ColumnFormula.Proofs.Scan.Piece
import ColumnFormula.Proofs.Scan.Place
import ColumnFormula.Proofs.Token.ColumnRef
import Mathlib.Data.List.Chain

/-!
# What a stream looks like

What a reader of the tokens may rely on, whatever was scanned: how a stream ends, what a token of
each kind carries and whether it knows its place, and which tokens stand side by side (`IsStream`).
The first three are facts about single pieces; the last is kept by every rule of a tiling, for the
token that comes next begins the stream of what is tiled behind.
-/

namespace ColumnFormula

open Scan Text

/-! ## What tokens carry -/

/-- A column as it can stand between brackets.  A table is named only together with a column, and the
first point splits the table off, so neither a table nor a column on its own has a point. -/
structure ColumnRef.IsBracketed (c : ColumnRef) : Prop where
  table : ∀ table ∈ c.table, '.' ∉ table.toList ∧ c.column ≠ ""
  column : c.table = none → '.' ∉ c.column.toList
  characters : ∀ d ∈ c.display.toList, d ≠ ']' ∧ isLineControl d = false

/-- What a token of a stream carries, by its kind.  Four of the kinds do not occur. -/
def Token.Kind.Allows : Kind → Option Value → Prop
  | .number, value => ∃ text, value = some (.text text) ∧ NumberText text.toList
  | .string, value => ∃ text, value = some (.text text) ∧
      (∀ c ∈ text.toList, isLineControl c = false) ∧ ¬ ('"' ∈ text.toList ∧ '\'' ∈ text.toList)
  | .argumentSeparator, value => value = some (.text ",")
  | .column, value => ∃ column, value = some (.column column) ∧ column.IsBracketed
  | .function, value => ∃ name, value = some (.text name) ∧ NameText name.toList
  | .endOfInput, value | .openParenthesis, value | .closeParenthesis, value
  | .openSquareBracket, value | .closeSquareBracket, value => value = none
  | .operatorNeq, _ | .operatorGte, _ | .operatorLte, _ | .functionArguments, _ => False
  | kind, value => ∃ c, value = some (.text (String.singleton c)) ∧
      (String.singleton c, kind) ∈ Operator.table

/-- Columns and functions know both ends of their place, which is not empty; other tokens know
neither. -/
def Token.IsPlaced (t : Token) : Prop :=
  if t.isMarked then ∃ start stop, t.start = some start ∧ t.stop = some stop ∧ start < stop
  else t.start = none ∧ t.stop = none

/-- Whether one token may stand right in front of another. -/
structure Token.MayPrecede (t next : Token) : Prop where
  column : next.kind = .column → t.kind = .openSquareBracket
  closing : next.kind = .closeSquareBracket → t.kind = .openSquareBracket ∨ t.kind = .column
  /-- A bracket that is not closed is cut off by the end of a function's arguments or of the input. -/
  cutOff : (t.kind = .openSquareBracket ∧ next.kind ≠ .column) ∨ t.kind = .column →
    next.kind = .closeSquareBracket ∨ next.kind = .closeParenthesis ∨ next.kind = .endOfInput

/-- A list of tokens such as a scan gives. -/
structure IsStream (tokens : List Token) : Prop where
  ends : ∃ front, tokens = front ++ [Token.endOfInput] ∧ ∀ t ∈ front, t.kind ≠ .endOfInput
  values : ∀ t ∈ tokens, t.kind.Allows t.value
  places : ∀ t ∈ tokens, t.IsPlaced
  begins : ∀ t ∈ tokens.head?, t.kind ≠ .column ∧ t.kind ≠ .closeSquareBracket
  neighbours : tokens.IsChain Token.MayPrecede

namespace ColumnRef

/-- What stands between brackets is read as a column that is a normal reference. -/
theorem IsBracketed.isNormal {c : ColumnRef} (h : c.IsBracketed) : c.IsNormal := by
  obtain ⟨table, column⟩ := c
  cases table with
  | none => exact h.column rfl
  | some table => exact h.table table rfl

theorem isBracketed_ofChars {text : List Char} (hclose : ']' ∉ text)
    (hcontrol : ∀ c ∈ text, isLineControl c = false) : (ofChars text).IsBracketed := by
  have hnormal := isNormal_ofChars text
  have hcharacters : ∀ d ∈ (ofChars text).display.toList, d ≠ ']' ∧ isLineControl d = false := by
    intro d hd
    have hmem := mem_of_mem_display hd
    exact ⟨fun heq => hclose (heq ▸ hmem), hcontrol d hmem⟩
  generalize ofChars text = c at hnormal hcharacters
  obtain ⟨table, column⟩ := c
  refine ⟨?_, ?_, hcharacters⟩
  · rintro _ ⟨⟩
    exact hnormal
  · rintro ⟨⟩
    exact hnormal

end ColumnRef

namespace Token

/-- A place that is moved to one that is not empty either is still a place. -/
theorem IsPlaced.relocate {t : Token} {move : Span → Span} (h : t.IsPlaced)
    (hmove : ∀ span, t.span? = some span → (move span).start < (move span).stop) :
    (t.relocate move).IsPlaced := by
  rw [IsPlaced] at h ⊢
  rw [isMarked_relocate]
  split at h
  · rename_i hkind
    obtain ⟨start, stop, hstart, hstop, _⟩ := h
    have hspan : t.span? = some ⟨start, stop⟩ := by rw [span?, hstart, hstop]
    rw [if_pos hkind, relocate_of_some hspan]
    exact ⟨_, _, rfl, rfl, hmove _ hspan⟩
  · rename_i hkind
    have hspan : t.span? = none := by rw [span?, h.1]
    rw [if_neg hkind, relocate_of_none hspan]
    exact h

/-- A token that neither opens a bracket nor stands in one may stand in front of all that does not
go on with one. -/
theorem MayPrecede.of_plain {t next : Token}
    (h : t.kind ≠ .openSquareBracket ∧ t.kind ≠ .column)
    (hnext : next.kind ≠ .column ∧ next.kind ≠ .closeSquareBracket) : MayPrecede t next := by
  refine ⟨fun hcolumn => absurd hcolumn hnext.1, fun hclose => absurd hclose hnext.2, ?_⟩
  rintro (⟨hopen, _⟩ | hcolumn)
  · exact absurd hopen h.1
  · exact absurd hcolumn h.2

end Token

namespace Scan

open Token

/-! ## The tokens of pieces, one by one -/

namespace SymbolToken

variable {c : Char} {token : Token}

theorem allows (h : SymbolToken c token) : token.kind.Allows token.value := by
  cases h with
  | @operator c kind h =>
    have hentry := Operator.kind?_eq_some_iff.1 h
    have hkind := Operator.kind_mem_charKinds h
    simp only [Operator.charKinds, List.mem_cons, List.not_mem_nil, or_false] at hkind
    rcases hkind with rfl | rfl | rfl | rfl | rfl | rfl | rfl <;> exact ⟨c, rfl, hentry⟩
  | separator => rfl
  | opening => rfl

theorem isPlaced (h : SymbolToken c token) : token.IsPlaced := by
  rw [IsPlaced, if_neg (Bool.eq_false_iff.1 h.isMarked)]
  cases h <;> exact ⟨rfl, rfl⟩

end SymbolToken

namespace Piece.Occurs

variable {p : Piece} {token : Token}

theorem kind_ne_endOfInput (h : p.Occurs) (htoken : p.token? = some token) :
    token.kind ≠ .endOfInput := by
  cases h with
  | symbol h =>
    obtain rfl := Option.some.inj htoken
    have hkind : ∀ kind ∈ symbolKinds, kind ≠ .endOfInput := by decide
    exact hkind _ h.kind_mem
  | blank | unclosed | dropped => cases htoken
  | _ =>
    obtain rfl := Option.some.inj htoken
    exact nofun

/-- A piece that has no line controls in it is the source of a token that carries what it should. -/
theorem allows (h : p.Occurs) (htoken : p.token? = some token)
    (hcontrol : ∀ c ∈ p.source, isLineControl c = false) : token.kind.Allows token.value := by
  cases h with
  | blank | unclosed | dropped => cases htoken
  | symbol h =>
    obtain rfl := Option.some.inj htoken
    exact h.allows
  | number h =>
    obtain rfl := Option.some.inj htoken
    exact ⟨_, rfl, by rwa [String.toList_ofList]⟩
  | column _ h =>
    obtain rfl := Option.some.inj htoken
    exact ⟨_, rfl, ColumnRef.isBracketed_ofChars h hcontrol⟩
  | @string quote body hquote h =>
    obtain rfl := Option.some.inj htoken
    refine ⟨_, rfl, ?_⟩
    rw [String.toList_ofList]
    refine ⟨fun c hc => hcontrol c (List.mem_append_left _ (List.mem_cons_of_mem quote hc)), ?_⟩
    -- The quote that ends a string is one of the two, and is not in it.
    rintro ⟨hdouble, hsingle⟩
    rw [isQuote, Bool.or_eq_true, beq_iff_eq, beq_iff_eq] at hquote
    rcases hquote with rfl | rfl
    · exact h hdouble
    · exact h hsingle
  | name h =>
    obtain rfl := Option.some.inj htoken
    exact ⟨_, rfl, by rwa [String.toList_ofList]⟩
  | _ =>
    obtain rfl := Option.some.inj htoken
    rfl

theorem isPlaced (h : p.Occurs) (htoken : p.token? = some token) : token.IsPlaced := by
  cases h with
  | blank | unclosed | dropped => cases htoken
  | symbol h =>
    obtain rfl := Option.some.inj htoken
    exact h.isPlaced
  | column hne _ =>
    obtain rfl := Option.some.inj htoken
    exact ⟨_, _, rfl, rfl, Nat.lt_add_of_pos_right (List.length_pos_iff.2 hne)⟩
  | name h =>
    obtain rfl := Option.some.inj htoken
    exact ⟨_, _, rfl, rfl, Nat.lt_add_of_pos_right (List.length_pos_iff.2 h.1)⟩
  | _ =>
    obtain rfl := Option.some.inj htoken
    exact ⟨rfl, rfl⟩

end Piece.Occurs

/-! ## Neighbours -/

/-- A bracket with its column may stand in front of the closing one and of what ends a region. -/
theorem neighbours_bracket {ps : List Piece} (start : Nat) (inner : List Char)
    (h : (stream ps).IsChain MayPrecede) (hhead : ∀ t ∈ (stream ps).head?,
      t.kind = .closeSquareBracket ∨ t.kind = .closeParenthesis ∨ t.kind = .endOfInput) :
    (stream (.lexeme ['['] (bare .openSquareBracket) :: columnPieces start inner ++ ps)).IsChain
      MayPrecede := by
  have hnot : ∀ t ∈ (stream ps).head?, t.kind ≠ .column := by
    intro t ht hcolumn
    have hkind := hhead t ht
    rw [hcolumn] at hkind
    rcases hkind with h | h | h <;> cases h
  rw [columnPieces]
  split
  · refine List.isChain_cons.2 ⟨?_, h⟩
    intro t ht
    exact ⟨fun hcolumn => absurd hcolumn (hnot t ht), fun _ => Or.inl rfl, fun _ => hhead t ht⟩
  · refine List.isChain_cons.2 ⟨?_, List.isChain_cons.2 ⟨?_, h⟩⟩
    · intro t ht
      obtain rfl := Option.some.inj ht
      have hkind : Kind.column ≠ .closeSquareBracket := by decide
      refine ⟨fun _ => rfl, fun hclose => absurd hclose hkind, ?_⟩
      rintro (⟨_, hcolumn⟩ | hcolumn)
      · exact absurd rfl hcolumn
      · cases hcolumn
    · intro t ht
      exact ⟨fun hcolumn => absurd hcolumn (hnot t ht), fun _ => Or.inr rfl, fun _ => hhead t ht⟩

namespace Tiling

variable {inside : Bool} {start : Nat} {text : List Char} {ps : List Piece}

/-- A token in front of a tiling keeps neighbours as they may be if it has nothing to do with a
bracket. -/
theorem neighbours_cons {token : Token} (h : Tiling inside start text ps) (source : List Char)
    (hplain : token.kind ≠ .openSquareBracket ∧ token.kind ≠ .column)
    (hchain : (stream ps).IsChain MayPrecede) :
    (stream (.lexeme source token :: ps)).IsChain MayPrecede := by
  refine List.isChain_cons.2 ⟨?_, hchain⟩
  intro t ht
  obtain ⟨hcolumn, hclose, _⟩ := h.kind_head t ht
  exact .of_plain hplain ⟨hcolumn, hclose⟩

theorem neighbours (h : Tiling inside start text ps) : (stream ps).IsChain MayPrecede := by
  induction h with
  | nil => exact List.isChain_singleton _
  | blank _ _ ih | unclosed _ _ _ _ _ ih | dropped _ _ _ _ ih => exact ih
  | symbol h hrest ih =>
    have hkind : ∀ kind ∈ symbolKinds, kind ≠ .openSquareBracket ∧ kind ≠ .column := by decide
    exact hrest.neighbours_cons _ (hkind _ h.kind_mem) ih
  | closing hrest ih => exact hrest.neighbours_cons _ ⟨nofun, nofun⟩ ih
  | stray hrest ih => exact hrest.neighbours_cons _ ⟨nofun, nofun⟩ ih
  | number _ _ hrest ih => exact hrest.neighbours_cons _ ⟨nofun, nofun⟩ ih
  | bracket _ _ hrest ih =>
    exact neighbours_bracket _ _ (hrest.neighbours_cons _ ⟨nofun, nofun⟩ ih)
      (head_stream_lexeme (Or.inl rfl) _ _)
  | bracketCut _ _ hend hrest ih =>
    exact neighbours_bracket _ _ ih fun t ht => Or.inr (hrest.kind_head_of_endsRegion hend t ht)
  | string _ _ _ hrest ih => exact hrest.neighbours_cons _ ⟨nofun, nofun⟩ ih
  | name _ _ hrest ih => exact hrest.neighbours_cons _ ⟨nofun, nofun⟩ ih
  | call _ hrest ih =>
    refine List.isChain_cons.2 ⟨?_, hrest.neighbours_cons ['('] ⟨nofun, nofun⟩ ih⟩
    exact head_stream_lexeme (.of_plain ⟨nofun, nofun⟩ ⟨nofun, nofun⟩) ['('] _

/-- The stream of a tiling of a text without line controls is such as a scan gives. -/
theorem isStream (h : Tiling inside start text ps) (hcontrol : ∀ c ∈ text, isLineControl c = false) :
    IsStream (stream ps) := by
  have hpieces : ∀ t ∈ ps.filterMap Piece.token?, ∃ p : Piece, p.Occurs ∧ p.token? = some t ∧
      ∀ c ∈ p.source, isLineControl c = false := by
    intro t ht
    obtain ⟨p, hp, htoken⟩ := List.mem_filterMap.1 ht
    refine ⟨p, h.occurs p hp, htoken, ?_⟩
    intro c hc
    apply hcontrol
    rw [← h.flatMap_source]
    exact List.mem_flatMap.2 ⟨p, hp, hc⟩
  refine ⟨⟨_, rfl, ?_⟩, ?_, ?_, ?_, h.neighbours⟩
  · intro t ht
    obtain ⟨p, hoccurs, htoken, _⟩ := hpieces t ht
    exact hoccurs.kind_ne_endOfInput htoken
  · refine List.forall_mem_append.2 ⟨?_, List.forall_mem_singleton.2 rfl⟩
    intro t ht
    obtain ⟨p, hoccurs, htoken, hsource⟩ := hpieces t ht
    exact hoccurs.allows htoken hsource
  · refine List.forall_mem_append.2 ⟨?_, List.forall_mem_singleton.2 ⟨rfl, rfl⟩⟩
    intro t ht
    obtain ⟨p, hoccurs, htoken, _⟩ := hpieces t ht
    exact hoccurs.isPlaced htoken
  · intro t ht
    obtain ⟨hcolumn, hclose, _⟩ := h.kind_head t ht
    exact ⟨hcolumn, hclose⟩

end Tiling

end Scan

/-! ## Streams that are moved -/

theorem allows_of_mem_tokenize {expression : String} {offset : Nat} :
    ∀ t ∈ (tokenize expression offset).tokens, t.kind.Allows t.value := by
  have htiling := tiling_items false 0 (strip expression.toList)
  have hstream := htiling.isStream fun c hc => isLineControl_of_mem_strip hc
  rw [tokens_tokenize_eq_stream, List.forall_mem_map]
  intro t ht
  rw [Token.kind_relocate, Token.value_relocate]
  exact hstream.values t ht

end ColumnFormula
