import ColumnFormula.Proofs.Scan.Refinement

/-!
# A scan as a list of items

Regions nest, but what they do to a scan comes down to one bit: whether a name stands in front with
no closing parenthesis behind it.  If so, the next closing parenthesis ends the arguments, and no
item goes past it; if not, items may go on to the end of the text.  `items` cuts a text into its items
by that bit alone, from left to right and with no region inside another, and `nested_eq_items` says
that the nested scan finds what these items have in them.
-/

namespace ColumnFormula.Scan

open Text Token

/-- The part of a text that an item may go on in: inside a function's arguments, up to the first
closing parenthesis. -/
def reach (inside : Bool) (text : List Char) : List Char :=
  if inside then text.takeWhile (· != ')') else text

/-- Whether a text stays in its region: a closing parenthesis ends a function's arguments, and is a
character like any other outside of them. -/
def InRegion (inside : Bool) (text : List Char) : Prop :=
  inside = true → ')' ∉ text

/-- Whether the region ends in front of a text. -/
def EndsRegion (inside : Bool) (text : List Char) : Prop :=
  text = [] ∨ (inside = true ∧ text.head? = some ')')

theorem reach_append {inside : Bool} {text tail : List Char} (h : InRegion inside text)
    (htail : EndsRegion inside tail) : reach inside (text ++ tail) = text := by
  cases inside with
  | false =>
    rcases htail with rfl | ⟨hfalse, _⟩
    · exact List.append_nil text
    · exact absurd hfalse Bool.false_ne_true
  | true =>
    rw [reach, if_pos rfl]
    rcases htail with rfl | ⟨_, hhead⟩
    · rw [List.append_nil, takeWhile_bne_of_not_mem (h rfl)]
    · obtain ⟨more, rfl⟩ := List.head?_eq_some_iff.1 hhead
      exact takeWhile_bne_append (h rfl) more

/-- What is in reach stays in its region, which ends behind it. -/
theorem exists_reach (inside : Bool) (text : List Char) :
    ∃ tail, text = reach inside text ++ tail ∧ InRegion inside (reach inside text) ∧
      EndsRegion inside tail := by
  cases inside with
  | false => exact ⟨[], (List.append_nil text).symm,
      fun h => absurd h Bool.false_ne_true, Or.inl rfl⟩
  | true =>
    rw [reach, if_pos rfl]
    by_cases h : ')' ∈ text
    · obtain ⟨arguments, following, rfl, hnot⟩ := List.eq_append_cons_of_mem h
      rw [takeWhile_bne_append hnot]
      exact ⟨')' :: following, rfl, fun _ => hnot, Or.inr ⟨rfl, rfl⟩⟩
    · rw [takeWhile_bne_of_not_mem h]
      exact ⟨[], (List.append_nil text).symm, fun _ => h, Or.inl rfl⟩

/-- The items of a text, which stands inside a function's arguments or not. -/
def items (inside : Bool) (text : List Char) : List Item :=
  match text with
  | [] => []
  | c :: rest =>
    if inside = true ∧ c = ')' then .closing true :: items false rest
    else
      let it := Item.first c (reach inside rest)
      it :: items (inside || it.isName) (rest.drop (it.source.length - 1))
termination_by text.length
decreasing_by
  · exact Nat.lt_succ_self _
  · rw [List.length_drop, List.length_cons]
    omega

/-- What is found in items that stand one behind the other from the position `base` on. -/
def findingsOf (base : Nat) : List Item → Findings
  | [] => .none
  | it :: rest => it.findings base ++ findingsOf (base + it.source.length) rest

@[simp] theorem items_nil (inside : Bool) : items inside [] = [] := by
  rw [items]

theorem items_closing (rest : List Char) :
    items true (')' :: rest) = .closing true :: items false rest := by
  rw [items, if_pos ⟨rfl, rfl⟩]

theorem items_cons {inside : Bool} {c : Char} (h : ¬ (inside = true ∧ c = ')')) (rest : List Char) :
    items inside (c :: rest) =
      Item.first c (reach inside rest) ::
        items (inside || (Item.first c (reach inside rest)).isName)
          (rest.drop ((Item.first c (reach inside rest)).source.length - 1)) := by
  rw [items, if_neg h]

/-- Arguments without a closing parenthesis have the items they have on their own. -/
theorem items_arguments {arguments : List Char} (h : ')' ∉ arguments) (inside : Bool)
    {tail : List Char} (htail : EndsRegion true tail) :
    items true (arguments ++ tail) = items inside arguments ++ items true tail := by
  induction hn : arguments.length using Nat.strong_induction_on generalizing arguments inside with
  | _ n ih =>
    cases arguments with
    | nil => rw [items_nil]; rfl
    | cons c rest =>
      rw [List.mem_cons, not_or] at h
      have hc : ∀ b : Bool, ¬ (b = true ∧ c = ')') := fun _ hclose => h.1 hclose.2.symm
      have hreach : reach true (rest ++ tail) = rest := reach_append (fun _ => h.2) htail
      -- Nothing in the arguments ends a region, so the bit does not matter for them.
      have hself : reach inside rest = rest := by
        conv => lhs; rw [← List.append_nil rest]
        exact reach_append (fun _ => h.2) (Or.inl rfl)
      have hle : (Item.first c rest).source.length - 1 ≤ rest.length := by
        have := Item.length_behind c rest
        omega
      rw [List.cons_append, items_cons (hc true), items_cons (hc inside), hreach, hself,
        List.drop_append_of_le_length hle, List.cons_append, Bool.true_or]
      congr 1
      refine ih _ ?_ (fun hmem => h.2 (List.mem_of_mem_drop hmem)) _ rfl
      rw [← hn, List.length_drop, List.length_cons]
      omega

theorem findingsOf_append (base : Nat) (a b : List Item) :
    findingsOf base (a ++ b) =
      findingsOf base a ++ findingsOf (base + (a.flatMap Item.source).length) b := by
  induction a generalizing base with
  | nil => rfl
  | cons it a ih =>
    rw [List.cons_append, findingsOf, findingsOf, ih, Findings.append_assoc, List.flatMap_cons,
      List.length_append, Nat.add_assoc]

/-! ## What the items are cut from -/

/-- An item that is read within reach is cut from the front of the whole text. -/
theorem source_first_append (inside : Bool) (c : Char) (rest : List Char) :
    (Item.first c (reach inside rest)).source ++
      rest.drop ((Item.first c (reach inside rest)).source.length - 1) = c :: rest := by
  obtain ⟨tail, htail, _, _⟩ := exists_reach inside rest
  have hle : (Item.first c (reach inside rest)).source.length - 1 ≤ (reach inside rest).length := by
    have := Item.length_behind c (reach inside rest)
    omega
  conv => lhs; arg 2; arg 2; rw [htail]
  rw [List.drop_append_of_le_length hle, ← List.append_assoc]
  show (Item.first c (reach inside rest)).source ++ Item.behind c (reach inside rest) ++ tail = _
  rw [Item.source_append_behind, List.cons_append, ← htail]

/-- The sources of the items, one behind the other, are the text. -/
theorem flatMap_source_items (inside : Bool) (text : List Char) :
    (items inside text).flatMap Item.source = text := by
  fun_induction items inside text with
  | case1 inside => rfl
  | case2 inside c rest h ih =>
    rw [List.flatMap_cons, ih, h.2]
    rfl
  | case3 inside c rest h it ih =>
    rw [List.flatMap_cons, ih]
    exact source_first_append inside c rest

/-- The nested scan finds what is in the items of the text. -/
theorem nested_eq_items (base : Nat) (text : List Char) :
    nested base text = findingsOf base (items false text) := by
  induction hn : text.length using Nat.strong_induction_on generalizing base text with
  | _ n ih =>
    cases text with
    | nil =>
      rw [nested_nil, items_nil]
      rfl
    | cons c rest =>
      rw [List.length_cons] at hn
      have hle := Item.length_behind_le c rest
      have hreach : reach false rest = rest := rfl
      rw [nested_cons, items_cons (fun h => Bool.false_ne_true h.1), hreach, findingsOf,
        Bool.false_or]
      show _ = (Item.first c rest).findings base ++
        findingsOf _ (items (Item.first c rest).isName (Item.behind c rest))
      -- Only a name opens a region, and in the items that region is the bit alone.
      congr 1
      generalize base + (Item.first c rest).source.length = start
      generalize Item.behind c rest = behind at hle ⊢
      cases (Item.first c rest).isName with
      | false =>
        rw [if_neg Bool.false_ne_true]
        exact ih _ (by omega) start behind rfl
      | true =>
        rw [if_pos rfl]
        by_cases hmem : ')' ∈ behind
        · obtain ⟨arguments, following, rfl, hnot⟩ := List.eq_append_cons_of_mem hmem
          rw [List.length_append, List.length_cons] at hle
          rw [nestedArguments_append hnot, items_arguments hnot false (Or.inr ⟨rfl, rfl⟩),
            items_closing, findingsOf_append, flatMap_source_items, findingsOf]
          rw [ih _ (by omega) start arguments rfl, ih _ (by omega) _ following rfl]
          rfl
        · have hitems := items_arguments hmem false (Or.inl rfl)
          rw [List.append_nil, items_nil, List.append_nil] at hitems
          rw [nestedArguments_of_not_mem hmem, hitems]
          exact ih _ (by omega) start behind rfl

end ColumnFormula.Scan

namespace ColumnFormula

open Scan Text

/-- A scan tells of an expression what is found in the items of its text without the line controls. -/
theorem tokenize_eq_items (expression : String) (offset : Nat) :
    let found := findingsOf 0 (items false (strip expression.toList))
    tokenize expression offset =
      ⟨found.tokens.map (Token.relocate (reportedSpan expression.toList offset)) ++
          [Token.endOfInput],
        found.unexpected.map fun (c, position) =>
          ⟨c, expression, wrap (offset + sourceIndex expression.toList position)⟩⟩ := by
  intro found
  rw [tokenize_eq_reported, nested_eq_items]

theorem tokens_tokenize (expression : String) (offset : Nat) :
    (tokenize expression offset).tokens =
      (findingsOf 0 (items false (strip expression.toList))).tokens.map
        (Token.relocate (reportedSpan expression.toList offset)) ++ [Token.endOfInput] :=
  congrArg Scan.tokens (tokenize_eq_items expression offset)

theorem diagnostics_tokenize (expression : String) (offset : Nat) :
    (tokenize expression offset).diagnostics =
      (findingsOf 0 (items false (strip expression.toList))).unexpected.map fun (c, position) =>
        ⟨c, expression, wrap (offset + sourceIndex expression.toList position)⟩ :=
  congrArg Scan.diagnostics (tokenize_eq_items expression offset)

end ColumnFormula
