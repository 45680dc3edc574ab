import ColumnFormula.Proofs.Scan.Determined
import ColumnFormula.Proofs.Token.Relocation

/-!
# Accounting for an expression

What a scan tells of an expression is what a tiling of its text accounts for: a token for each source
of one, and a warning for each unexpected character, in order.  Both are bounded by the text, and the
warnings by the functions as well, for a scan that drops a region goes on only behind the arguments
of a function.
-/

namespace ColumnFormula.Scan

open Text Token

/-! ## Warnings and functions -/

/-- Whether the item is an unexpected character. -/
def Item.isDropped : Item → Bool
  | dropped _ _ => true
  | _ => false

theorem Item.role_of_isDropped {c : Char} {rest : List Char}
    (h : (Item.first c rest).isDropped = true) : Role.of c = .unexpected := by
  cases hrole : Role.of c with
  | unexpected => rfl
  | quote =>
    rw [Item.first_of_role hrole, Item.ofRole] at h
    split at h <;> exact absurd h Bool.false_ne_true
  | _ =>
    rw [Item.first_of_role hrole] at h
    exact absurd h Bool.false_ne_true

/-- An unexpected character takes the rest of its region with it. -/
theorem endsRegion_of_isDropped {inside : Bool} {c : Char} {rest : List Char}
    (h : (Item.first c (reach inside rest)).isDropped = true) :
    (Item.first c (reach inside rest)).isName = false ∧
      EndsRegion inside (rest.drop ((Item.first c (reach inside rest)).source.length - 1)) := by
  obtain ⟨tail, htail, _, hend⟩ := exists_reach inside rest
  have hfirst : Item.first c (reach inside rest) = .dropped c (reach inside rest) :=
    Item.first_of_role (Item.role_of_isDropped h) _
  have hdrop : rest.drop (reach inside rest).length = tail := by
    conv => lhs; arg 2; rw [htail]
    exact List.drop_left
  rw [hfirst]
  refine ⟨rfl, ?_⟩
  show EndsRegion inside (rest.drop (reach inside rest).length)
  rw [hdrop]
  exact hend

/-- How many regions may still be dropped in a text before a function's name is met: the one that the
text begins in, and the one behind it. -/
def regionsLeft (inside : Bool) (text : List Char) : Nat :=
  if inside = true ∧ text.head? ≠ some ')' then 2 else 1

theorem regionsLeft_bounds (inside : Bool) (text : List Char) :
    1 ≤ regionsLeft inside text ∧ regionsLeft inside text ≤ if inside then 2 else 1 := by
  rw [regionsLeft]
  cases inside <;> split <;> simp_all

theorem countP_isDropped_le (inside : Bool) (text : List Char) :
    (items inside text).countP Item.isDropped ≤
      (items inside text).countP Item.isName + regionsLeft inside text := by
  fun_induction items inside text with
  | case1 => exact Nat.zero_le _
  | case2 inside c rest h ih =>
    have hleft : regionsLeft inside (c :: rest) = 1 := by rw [h.1, h.2]; rfl
    rw [hleft]
    exact ih
  | case3 inside c rest h it ih =>
    have hleft : regionsLeft inside (c :: rest) = if inside then 2 else 1 := by
      cases inside with
      | false => rfl
      | true =>
        have hc : c ≠ ')' := fun hc => h ⟨rfl, hc⟩
        simp [regionsLeft, hc]
    -- An item gives up a region only if it is dropped, and only a name opens one.
    have hbounds := regionsLeft_bounds (inside || it.isName) (rest.drop (it.source.length - 1))
    rw [hleft, List.countP_cons, List.countP_cons]
    cases hdropped : it.isDropped with
    | true =>
      obtain ⟨hname, hend⟩ := endsRegion_of_isDropped hdropped
      rw [show it.isName = false from hname, Bool.or_false] at ih ⊢
      rcases hend with hnil | ⟨hinside, hhead⟩
      · rw [show rest.drop (it.source.length - 1) = [] from hnil, items_nil]
        cases inside <;> decide
      · -- Inside the arguments the scan goes on at their end, with one region less.
        have hone : regionsLeft inside (rest.drop (it.source.length - 1)) = 1 :=
          if_neg fun hne => hne.2 hhead
        rw [if_pos rfl, if_neg Bool.false_ne_true, if_pos hinside]
        omega
    | false =>
      rw [if_neg Bool.false_ne_true]
      cases hname : it.isName with
      | true =>
        rw [hname, Bool.or_true] at ih hbounds
        rw [if_pos rfl] at hbounds
        rw [Bool.or_true, if_pos rfl]
        split <;> omega
      | false =>
        rw [hname, Bool.or_false] at ih hbounds
        rw [Bool.or_false, if_neg Bool.false_ne_true]
        omega

theorem length_unexpected_findingsOf (base : Nat) (its : List Item) :
    (findingsOf base its).unexpected.length = its.countP Item.isDropped := by
  induction its generalizing base with
  | nil => rfl
  | cons it rest ih =>
    rw [findingsOf, Findings.unexpected_append, List.length_append, ih, List.countP_cons,
      Nat.add_comm]
    congr 1
    cases it <;> rfl

/-- Every name is the source of a function. -/
theorem countP_isName_le (base : Nat) (its : List Item) :
    its.countP Item.isName ≤ (findingsOf base its).tokens.countP (·.kind == .function) := by
  induction its generalizing base with
  | nil => exact Nat.le_refl 0
  | cons it rest ih =>
    rw [findingsOf, Findings.tokens_append, List.countP_append, List.countP_cons, Nat.add_comm]
    refine Nat.add_le_add ?_ (ih _)
    show (if it.isName then 1 else 0) ≤ (it.tokens base).countP (·.kind == .function)
    cases it with
    | name text call =>
      rw [Item.tokens, List.countP_cons_of_pos (by rfl)]
      exact Nat.succ_le_succ (Nat.zero_le _)
    | _ => exact Nat.zero_le _

end ColumnFormula.Scan

namespace ColumnFormula

open Scan Text

/-- Every character of an expression without its line controls is accounted for once: by a blank, by
the source of a token, by a quote that is not closed, or by an unexpected character and what is
dropped with it.  There is one tiling by such pieces.  Its sources of tokens are in order those of
the tokens of the scan in front of the end, and its unexpected characters are in order those of the
warnings. -/
theorem tokenize_accounts (expression : String) (offset : Nat) :
    let text := strip expression.toList
    let scan := tokenize expression offset
    ∃ ps, (∀ qs, Tiling false 0 text qs ↔ qs = ps) ∧ ps.flatMap Piece.source = text ∧
      scan.tokens =
        (ps.filterMap Piece.token?).map (Token.relocate (reportedSpan expression.toList offset)) ++
          [Token.endOfInput] ∧
      scan.diagnostics = (ps.filterMap Piece.unexpected?).map (fun (c, position) =>
        ⟨c, expression, wrap (offset + sourceIndex expression.toList position)⟩) ∧
      scan.tokens.length + scan.diagnostics.length ≤ text.length + 1 ∧
      scan.diagnostics.length ≤ scan.tokens.countP (·.kind == .function) + 1 := by
  intro text scan
  have htiling := tiling_items false 0 text
  have hcount := htiling.length_token_add_unexpected_le
  rw [filterMap_token_piecesOf, filterMap_unexpected_piecesOf] at hcount
  have htokens : scan.tokens = (findingsOf 0 (items false text)).tokens.map _ ++ _ :=
    tokens_tokenize expression offset
  have hdiagnostics : scan.diagnostics = (findingsOf 0 (items false text)).unexpected.map _ :=
    diagnostics_tokenize expression offset
  refine ⟨_, fun _ => tiling_iff, htiling.flatMap_source, ?_, ?_, ?_, ?_⟩
  · rw [htokens, filterMap_token_piecesOf]
  · rw [hdiagnostics, filterMap_unexpected_piecesOf]
  · rw [htokens, hdiagnostics]
    simp only [List.length_append, List.length_map, List.length_singleton]
    omega
  · have hdropped := countP_isDropped_le false text
    have hnames := countP_isName_le 0 (items false text)
    have hone : regionsLeft false text = 1 := rfl
    rw [htokens, hdiagnostics, List.countP_append, List.countP_map, List.length_map,
      length_unexpected_findingsOf]
    simp only [Function.comp_def, Token.kind_relocate]
    omega

end ColumnFormula
