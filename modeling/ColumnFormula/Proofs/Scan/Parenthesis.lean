import ColumnFormula.Proofs.Scan.Accounting
import ColumnFormula.Proofs.Scan.Call
import Mathlib.Data.List.Induction

/-!
# What parentheses come out as

A closing parenthesis comes out as one if a function waits for it, and as an opening one if none
does; an opening parenthesis comes out as one right behind a function's name, and as a closing one
anywhere else.  `Answered` says this of the pieces of a text from left to right, with the two facts
about what stands in front that decide it, and a tiling has it rule by rule (`Tiling.answered`).
That a function waits can then be said without the scan: a function stands in front, and no closing
parenthesis between (`foldl_waits_iff`).
-/

namespace ColumnFormula.Scan

open Text Token

/-! ## Parentheses among the pieces -/

namespace Piece

/-- Whether the piece is the parenthesis `c` and has become a parenthesis of the stream.  All that
stands between two brackets may be a parenthesis too, but becomes a column. -/
def isParenthesis (c : Char) : Piece → Bool
  | lexeme source token =>
    (token.kind == .openParenthesis || token.kind == .closeParenthesis) && source == [c]
  | _ => false

theorem isFunction_of_isParenthesis {c : Char} {p : Piece} (h : p.isParenthesis c = true) :
    p.isFunction = false := by
  cases p with
  | lexeme source token =>
    have hkind := (Bool.and_eq_true _ _ ▸ h).1
    rw [Bool.or_eq_true, beq_iff_eq, beq_iff_eq] at hkind
    rcases hkind with hkind | hkind <;> rw [isFunction, hkind] <;> rfl
  | _ => rfl

end Piece

/-- A function stands among the pieces, and no closing parenthesis behind it. -/
def AwaitsClosing (ps : List Piece) : Prop :=
  ∃ front p back, ps = front ++ p :: back ∧ p.isFunction = true ∧
    ∀ q ∈ back, q.isParenthesis ')' = false

/-- Whether a function waits for a closing parenthesis behind a piece, if one did in front of it or
not. -/
def waits (inside : Bool) (p : Piece) : Bool :=
  !p.isParenthesis ')' && (inside || p.isFunction)

theorem awaitsClosing_concat {ps : List Piece} {p : Piece} :
    AwaitsClosing (ps ++ [p]) ↔
      p.isParenthesis ')' = false ∧ (AwaitsClosing ps ∨ p.isFunction = true) := by
  constructor
  · rintro ⟨front, q, back, hps, hq, hback⟩
    rcases List.eq_nil_or_concat' back with rfl | ⟨back, r, rfl⟩
    · obtain ⟨rfl, hpq⟩ := List.append_inj' hps rfl
      obtain rfl := (List.cons.inj hpq).1
      refine ⟨?_, Or.inr hq⟩
      rw [Bool.eq_false_iff]
      intro hclose
      rw [Piece.isFunction_of_isParenthesis hclose] at hq
      exact Bool.false_ne_true hq
    · rw [← List.cons_append, ← List.append_assoc] at hps
      obtain ⟨rfl, hpr⟩ := List.append_inj' hps rfl
      obtain rfl := (List.cons.inj hpr).1
      refine ⟨hback _ (by simp), Or.inl ⟨front, q, back, rfl, hq, ?_⟩⟩
      intro t ht
      exact hback t (List.mem_append_left _ ht)
  · rintro ⟨hclose, ⟨front, q, back, rfl, hq, hback⟩ | hp⟩
    · refine ⟨front, q, back ++ [p], by simp, hq, ?_⟩
      exact List.forall_mem_append.2 ⟨hback, by simpa using hclose⟩
    · exact ⟨ps, p, [], rfl, hp, fun _ h => absurd h List.not_mem_nil⟩

/-- The bit that is carried from piece to piece says whether a function waits. -/
theorem foldl_waits_iff (ps : List Piece) : ps.foldl waits false = true ↔ AwaitsClosing ps := by
  induction ps using List.reverseRecOn with
  | nil =>
    refine iff_of_false Bool.false_ne_true ?_
    rintro ⟨front, p, back, h, _⟩
    exact absurd h.symm (List.append_ne_nil_of_right_ne_nil front (List.cons_ne_nil p back))
  | append_singleton ps p ih =>
    rw [List.foldl_append, awaitsClosing_concat, ← ih]
    show waits _ p = true ↔ _
    rw [waits, Bool.and_eq_true, Bool.or_eq_true, Bool.not_eq_true']

/-! ## Going through the pieces -/

/-- Every parenthesis of the pieces is what is due where it stands.  In front of them a function
waits for a closing parenthesis or does not, and the last piece is a function's name or is not. -/
def Answered (inside named : Bool) : List Piece → Prop
  | [] => True
  | p :: ps =>
    (p.isParenthesis ')' = true →
      p.token? = some (bare (if inside then .closeParenthesis else .openParenthesis))) ∧
    (p.isParenthesis '(' = true →
      p.token? = some (bare (if named then .openParenthesis else .closeParenthesis))) ∧
    Answered (waits inside p) p.isFunction ps

namespace Answered

variable {inside named : Bool} {p : Piece} {ps : List Piece}

/-- A piece that is neither a parenthesis nor a function changes nothing. -/
theorem cons_other (hclose : p.isParenthesis ')' = false) (hopen : p.isParenthesis '(' = false)
    (hfunction : p.isFunction = false) (h : Answered inside false ps) :
    Answered inside named (p :: ps) := by
  refine ⟨?_, ?_, ?_⟩
  · rw [hclose]
    intro hfalse
    exact absurd hfalse Bool.false_ne_true
  · rw [hopen]
    intro hfalse
    exact absurd hfalse Bool.false_ne_true
  · rw [waits, hclose, hfunction, Bool.or_false]
    exact h

/-- Behind a name only an opening parenthesis is answered otherwise. -/
theorem behind_name (h : Answered inside false ps)
    (hopen : ∀ p ∈ ps.head?, p.isParenthesis '(' = false) : Answered inside true ps := by
  cases ps with
  | nil => trivial
  | cons p ps =>
    refine ⟨h.1, ?_, h.2.2⟩
    rw [hopen p rfl]
    intro hfalse
    exact absurd hfalse Bool.false_ne_true

/-- What is due at a piece is decided by the pieces in front of it. -/
theorem of_split {before after : List Piece} (h : Answered inside named (before ++ p :: after)) :
    (p.isParenthesis ')' = true → p.token? = some (bare
      (if before.foldl waits inside then .closeParenthesis else .openParenthesis))) ∧
    (p.isParenthesis '(' = true → p.token? = some (bare
      (if before.getLast?.elim named Piece.isFunction then .openParenthesis
        else .closeParenthesis))) := by
  induction before generalizing inside named with
  | nil => exact ⟨h.1, h.2.1⟩
  | cons q before ih =>
    obtain ⟨hclose, hopen⟩ := ih h.2.2
    refine ⟨hclose, ?_⟩
    cases before with
    | nil => exact hopen
    | cons r before =>
      rw [List.getLast?_cons_cons]
      exact hopen

variable {before after : List Piece}

/-- In a whole text a closing parenthesis is what it is by whether a function waits for it. -/
theorem closing (h : Answered false false (before ++ p :: after))
    (hclose : p.isParenthesis ')' = true) :
    (AwaitsClosing before → p.token? = some (bare .closeParenthesis)) ∧
      (¬ AwaitsClosing before → p.token? = some (bare .openParenthesis)) := by
  have hdue := h.of_split.1 hclose
  constructor
  · intro hawaits
    rwa [(foldl_waits_iff before).2 hawaits] at hdue
  · intro hnot
    rwa [Bool.eq_false_iff.2 fun hawaits => hnot ((foldl_waits_iff before).1 hawaits)] at hdue

/-- An opening parenthesis is what it is by whether a function's name is the piece in front of it. -/
theorem opening (h : Answered false false (before ++ p :: after))
    (hopen : p.isParenthesis '(' = true) :
    (before.getLast?.any Piece.isFunction = true → p.token? = some (bare .openParenthesis)) ∧
      (before.getLast?.any Piece.isFunction = false → p.token? = some (bare .closeParenthesis)) := by
  have hdue := h.of_split.2 hopen
  have hlast : before.getLast?.elim false Piece.isFunction =
      before.getLast?.any Piece.isFunction := by
    cases before.getLast? <;> rfl
  rw [hlast] at hdue
  constructor
  · intro hfunction
    rwa [hfunction] at hdue
  · intro hnot
    rwa [hnot] at hdue

end Answered

theorem SymbolToken.answered {c : Char} {token : Token} (h : SymbolToken c token) {inside : Bool}
    {ps : List Piece} (hps : Answered inside false ps) :
    Answered inside false (.lexeme [c] token :: ps) := by
  cases h with
  | @operator c kind h =>
    have hkind : ∀ kind ∈ Operator.charKinds, (kind == .openParenthesis ||
        kind == .closeParenthesis) = false ∧ (kind == .function) = false := by decide
    obtain ⟨hparenthesis, hfunction⟩ := hkind kind (Operator.kind_mem_charKinds h)
    have hother : ∀ d, (Piece.lexeme [c] (.ofText kind (String.singleton c))).isParenthesis d =
        false := by
      intro d
      show ((kind == .openParenthesis || kind == .closeParenthesis) && _) = false
      rw [hparenthesis, Bool.false_and]
    exact .cons_other (hother ')') (hother '(') hfunction hps
  | separator => exact .cons_other rfl rfl rfl hps
  | opening =>
    -- An opening parenthesis is met on its own only where no name stands right in front.
    refine ⟨fun h => absurd h (by decide), fun _ => rfl, ?_⟩
    show Answered (inside || false) false ps
    rw [Bool.or_false]
    exact hps

theorem Answered.columnPieces {inside : Bool} {ps : List Piece} (start : Nat) (inner : List Char)
    (h : Answered inside false ps) : Answered inside false (Scan.columnPieces start inner ++ ps) := by
  rw [Scan.columnPieces]
  split
  · exact h
  · exact .cons_other rfl rfl rfl h

namespace Tiling

variable {inside : Bool} {start : Nat} {text : List Char} {ps : List Piece}

/-- The first piece of a tiling is an opening parenthesis only if the text begins with one. -/
theorem isParenthesis_head? (h : Tiling inside start text ps) {c : Char} (hne : text.head? ≠ some c) :
    ∀ p ∈ ps.head?, p.isParenthesis c = false := by
  intro p hp
  rw [Bool.eq_false_iff]
  intro hparenthesis
  cases p with
  | lexeme source token =>
    obtain ⟨_, hsource⟩ := (Bool.and_eq_true _ _).mp hparenthesis
    apply hne
    rw [← h.head?_source _ hp, Piece.source, eq_of_beq hsource]
    rfl
  | _ => exact absurd hparenthesis Bool.false_ne_true

/-- In a tiling every parenthesis is answered. -/
theorem answered (h : Tiling inside start text ps) : Answered inside false ps := by
  induction h with
  | nil => trivial
  | blank _ _ ih => exact .cons_other rfl rfl rfl ih
  | symbol h _ ih => exact h.answered ih
  | closing _ ih => exact ⟨fun _ => rfl, fun h => absurd h (by decide), ih⟩
  | stray _ ih => exact ⟨fun _ => rfl, fun h => absurd h (by decide), ih⟩
  | number _ _ _ ih => exact .cons_other rfl rfl rfl ih
  | @bracket _ start inner _ _ _ _ _ ih =>
    exact .cons_other rfl rfl rfl (.columnPieces (start + 1) inner (.cons_other rfl rfl rfl ih))
  | @bracketCut _ start inner _ _ _ _ _ _ ih =>
    exact .cons_other rfl rfl rfl (.columnPieces (start + 1) inner ih)
  | string _ _ _ _ ih => exact .cons_other rfl rfl rfl ih
  | unclosed _ _ _ _ _ ih => exact .cons_other rfl rfl rfl ih
  | @name inside _ _ rest ps _ hlongest hrest ih =>
    have hopen : rest.head? ≠ some '(' := fun hopen => (hlongest '(' hopen).2 rfl
    refine ⟨fun h => absurd h Bool.false_ne_true, fun h => absurd h Bool.false_ne_true, ?_⟩
    show Answered (inside || true) true ps
    rw [Bool.or_true]
    exact ih.behind_name (hrest.isParenthesis_head? hopen)
  | @call inside _ _ _ ps _ _ ih =>
    refine ⟨fun h => absurd h Bool.false_ne_true, fun h => absurd h Bool.false_ne_true,
      fun h => absurd h (by decide), fun _ => rfl, ?_⟩
    show Answered ((inside || true) || false) false ps
    rw [Bool.or_true, Bool.or_false]
    exact ih
  | dropped _ _ _ _ ih => exact .cons_other rfl rfl rfl ih

end Tiling

/-! ## Which pieces are parentheses -/

theorem SymbolToken.parenthesis_iff {c : Char} {token : Token} (h : SymbolToken c token) :
    (token.kind = .openParenthesis ∨ token.kind = .closeParenthesis) ↔
      ([c] = ['('] ∨ [c] = [')']) := by
  cases h with
  | @operator c kind h =>
    have hkind : ∀ kind ∈ Operator.charKinds,
        ¬ (kind = .openParenthesis ∨ kind = .closeParenthesis) := by decide
    have hnone : Operator.kindOfChar? '(' = none ∧ Operator.kindOfChar? ')' = none := by decide
    refine iff_of_false (hkind kind (Operator.kind_mem_charKinds h)) ?_
    rintro (hc | hc)
    · rw [(List.cons.inj hc).1, hnone.1] at h
      cases h
    · rw [(List.cons.inj hc).1, hnone.2] at h
      cases h
  | separator => exact iff_of_false (by decide) (by decide)
  | opening => exact iff_of_true (Or.inr rfl) (Or.inl rfl)

/-- A token that is no column is a parenthesis exactly if its source is one. -/
theorem Piece.Occurs.parenthesis_iff {source : List Char} {token : Token}
    (h : (Piece.lexeme source token).Occurs) (hcolumn : token.kind ≠ .column) :
    (token.kind = .openParenthesis ∨ token.kind = .closeParenthesis) ↔
      (source = ['('] ∨ source = [')']) := by
  cases h with
  | symbol h => exact h.parenthesis_iff
  | closing => exact iff_of_true (Or.inr rfl) (Or.inr rfl)
  | stray => exact iff_of_true (Or.inl rfl) (Or.inr rfl)
  | call => exact iff_of_true (Or.inl rfl) (Or.inl rfl)
  | openBracket => exact iff_of_false (by decide) (by decide)
  | closeBracket => exact iff_of_false (by decide) (by decide)
  | column => exact absurd rfl hcolumn
  | string => exact iff_of_false nofun (by simp)
  | number h =>
    refine iff_of_false nofun ?_
    rintro (rfl | rfl) <;> exact absurd h.head (by decide)
  | name h =>
    refine iff_of_false nofun ?_
    rintro (rfl | rfl)
    · exact absurd (h.2.1 '(' List.mem_cons_self) (by decide)
    · exact absurd (h.2.1 ')' List.mem_cons_self) (by decide)

end ColumnFormula.Scan

namespace ColumnFormula

open Scan Text Token

/-- Which parenthesis becomes which token.  In the one tiling of an expression a closing parenthesis
is one in the stream if a function stands in front with no closing parenthesis between, and an
opening one if not; an opening parenthesis is one right behind a function's name, and a closing one
if not.  No other tokens are parentheses.  So behind a function there is an opening parenthesis in
the stream exactly if there is one behind its name in the expression, whatever offset the tokens are
moved by. -/
theorem tokenize_parentheses (expression : String) (offset : Nat) :
    let text := strip expression.toList
    let scan := tokenize expression offset
    ∃ ps, (∀ qs, Tiling false 0 text qs ↔ qs = ps) ∧
      scan.tokens =
        (ps.filterMap Piece.token?).map (Token.relocate (reportedSpan expression.toList offset)) ++
          [Token.endOfInput] ∧
      (∀ before p after, ps = before ++ p :: after → p.isParenthesis ')' = true →
        (AwaitsClosing before → p.token? = some (bare .closeParenthesis)) ∧
        (¬ AwaitsClosing before → p.token? = some (bare .openParenthesis))) ∧
      (∀ before p after, ps = before ++ p :: after → p.isParenthesis '(' = true →
        (before.getLast?.any Piece.isFunction = true → p.token? = some (bare .openParenthesis)) ∧
        (before.getLast?.any Piece.isFunction = false → p.token? = some (bare .closeParenthesis))) ∧
      (∀ source token, .lexeme source token ∈ ps → token.kind ≠ .column →
        ((token.kind = .openParenthesis ∨ token.kind = .closeParenthesis) ↔
          (source = ['('] ∨ source = [')']))) ∧
      (ps.filterMap Piece.token? ++ [endOfInput]).IsChain fun token next => token.kind = .function →
        ∃ span, token.span? = some span ∧
          (next.kind = .openParenthesis ↔ (text.drop span.stop).head? = some '(') := by
  intro text scan
  have htiling := tiling_items false 0 text
  have htokens : scan.tokens = _ := tokens_tokenize_eq_stream expression offset
  refine ⟨_, fun _ => tiling_iff, ?_, ?_, ?_, ?_, ?_⟩
  · rw [htokens, stream, List.map_append]
    rfl
  · intro before p after hps hclose
    have hanswered := htiling.answered
    rw [hps] at hanswered
    exact hanswered.closing hclose
  · intro before p after hps hopen
    have hanswered := htiling.answered
    rw [hps] at hanswered
    exact hanswered.opening hopen
  · intro source token hmem hcolumn
    exact (htiling.occurs _ hmem).parenthesis_iff hcolumn
  · refine htiling.isChain_callAt.imp ?_
    intro token next hcall hfunction
    obtain ⟨span, hspan, _, _, hnext⟩ := hcall hfunction
    exact ⟨span, hspan, hnext⟩

end ColumnFormula
