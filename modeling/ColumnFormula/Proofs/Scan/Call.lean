import ColumnFormula.Proofs.Scan.Piece
import Mathlib.Data.List.Chain

/-!
# What follows a function in the stream

A function is followed by an opening parenthesis in the stream exactly if there is one right behind its
name in the text.  One direction is the rule for a call; the other has to exclude that the parenthesis
comes from elsewhere, from a closing one that stands alone, and it cannot, for behind a name a closing
parenthesis ends the arguments (`Tiling.kind_head`).
-/

namespace ColumnFormula.Scan

open Text Token

/-- If the token is a function, then the next one is an opening parenthesis exactly if one stands
right behind the function's name in the text, which itself stands at the position `start`. -/
def CallAt (start : Nat) (text : List Char) (token next : Token) : Prop :=
  token.kind = .function → ∃ span, token.span? = some span ∧ start < span.stop ∧
    span.stop ≤ start + text.length ∧
    (next.kind = .openParenthesis ↔ (text.drop (span.stop - start)).head? = some '(')

theorem CallAt.append_left {start : Nat} {text : List Char} {token next : Token} (front : List Char)
    (h : CallAt (start + front.length) text token next) : CallAt start (front ++ text) token next := by
  intro hfunction
  obtain ⟨span, hspan, hlt, hle, hnext⟩ := h hfunction
  have hdrop : span.stop - start = front.length + (span.stop - (start + front.length)) := by omega
  refine ⟨span, hspan, by omega, ?_, ?_⟩
  · rw [List.length_append]
    omega
  · rw [hnext, hdrop, ← List.drop_drop, List.drop_left]

/-- What is due to a function whose name the text begins with. -/
theorem callAt_function {start : Nat} {text rest : List Char} {next : Token} (h : text ≠ [])
    (hnext : next.kind = .openParenthesis ↔ rest.head? = some '(') :
    CallAt start (text ++ rest)
      (.ofFunction (String.ofList text) ⟨start, start + text.length⟩) next := by
  intro _
  have hpos := List.length_pos_iff.2 h
  refine ⟨_, rfl, by simpa using hpos, by simp, ?_⟩
  rw [hnext, Nat.add_sub_cancel_left, List.drop_left]

/-! ## Functions in a tiling -/

/-- Pieces that are no functions may stand in front of others. -/
theorem isChain_callAt_append {start : Nat} {front ps : List Piece} {text : List Char}
    (own : List Char) (hfront : ∀ p ∈ front, p.isFunction = false)
    (h : (stream ps).IsChain (CallAt (start + own.length) text)) :
    (stream (front ++ ps)).IsChain (CallAt start (own ++ text)) := by
  induction front with
  | nil => exact h.imp fun _ _ hcall => hcall.append_left own
  | cons p front ih =>
    obtain ⟨hp, hmore⟩ := List.forall_mem_cons.1 hfront
    cases p with
    | lexeme source token =>
      refine List.isChain_cons.2 ⟨?_, ih hmore⟩
      intro next _ hfunction
      exact absurd hfunction (beq_eq_false_iff_ne.1 hp)
    | _ => exact ih hmore

theorem isChain_callAt_cons {start : Nat} {p : Piece} {ps : List Piece} {text : List Char}
    (own : List Char) (hp : p.isFunction = false)
    (h : (stream ps).IsChain (CallAt (start + own.length) text)) :
    (stream (p :: ps)).IsChain (CallAt start (own ++ text)) := by
  have hfront : ∀ q ∈ [p], q.isFunction = false := List.forall_mem_singleton.2 hp
  exact isChain_callAt_append own hfront h

/-- The pieces of a bracket up to its end are no functions. -/
theorem isFunction_opened (start : Nat) (inner : List Char) :
    ∀ p ∈ Piece.lexeme ['['] (bare .openSquareBracket) :: columnPieces start inner,
      p.isFunction = false := by
  intro p hp
  rcases List.mem_cons.1 hp with rfl | hp
  · rfl
  · obtain ⟨_, rfl⟩ := mem_columnPieces.1 hp
    rfl

/-- In the stream of a tiling every function is followed as the text says. -/
theorem Tiling.isChain_callAt {inside : Bool} {start : Nat} {text : List Char} {ps : List Piece}
    (h : Tiling inside start text ps) : (stream ps).IsChain (CallAt start text) := by
  induction h with
  | nil => exact List.isChain_singleton _
  | @blank _ _ c _ _ _ _ ih => exact isChain_callAt_cons [c] rfl ih
  | @symbol _ _ c token _ _ h _ ih =>
    have hkind : ∀ kind ∈ symbolKinds, (kind == .function) = false := by decide
    exact isChain_callAt_cons [c] (hkind _ h.kind_mem) ih
  | closing _ ih => exact isChain_callAt_cons [')'] rfl ih
  | stray _ ih => exact isChain_callAt_cons [')'] rfl ih
  | @number _ _ text _ _ _ _ _ ih => exact isChain_callAt_cons text rfl ih
  | @bracket _ start inner rest ps _ _ _ ih =>
    have hclose : (stream (.lexeme [']'] (bare .closeSquareBracket) :: ps)).IsChain
        (CallAt (start + ('[' :: inner).length) ([']'] ++ rest)) :=
      isChain_callAt_cons [']'] rfl ih
    exact isChain_callAt_append ('[' :: inner) (isFunction_opened (start + 1) inner) hclose
  | @bracketCut _ start inner _ _ _ _ _ _ ih =>
    exact isChain_callAt_append ('[' :: inner) (isFunction_opened (start + 1) inner) ih
  | @string _ start quote body rest ps _ _ _ _ ih =>
    have hrest : (stream ps).IsChain (CallAt (start + (quote :: body ++ [quote]).length) rest) := by
      simpa [Nat.add_assoc] using ih
    have hstring : (stream (.lexeme (quote :: body ++ [quote]) (.ofText .string (String.ofList body)) ::
        ps)).IsChain (CallAt start (quote :: body ++ [quote] ++ rest)) :=
      isChain_callAt_cons (quote :: body ++ [quote]) rfl hrest
    rwa [List.append_assoc] at hstring
  | @unclosed _ _ quote body _ _ _ _ _ _ _ ih => exact isChain_callAt_cons (quote :: body) rfl ih
  | @name _ _ text _ _ h hlongest hrest ih =>
    refine List.isChain_cons.2 ⟨?_, ih.imp fun _ _ hcall => hcall.append_left text⟩
    intro next hnext
    refine callAt_function h.1 (iff_of_false ((hrest.kind_head next hnext).2.2 rfl) ?_)
    exact fun hopen => (hlongest '(' hopen).2 rfl
  | @call _ start text rest ps h hrest ih =>
    have hopen : (stream (.lexeme ['('] (bare .openParenthesis) :: ps)).IsChain
        (CallAt (start + text.length) (['('] ++ rest)) :=
      isChain_callAt_cons ['('] rfl ih
    refine List.isChain_cons.2 ⟨?_, hopen.imp fun _ _ hcall => hcall.append_left text⟩
    exact head_stream_lexeme (callAt_function h.1 (iff_of_true rfl rfl)) ['('] _
  | @dropped _ _ c body _ _ _ _ _ _ ih => exact isChain_callAt_cons (c :: body) rfl ih

end ColumnFormula.Scan
