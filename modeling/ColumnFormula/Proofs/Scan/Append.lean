import ColumnFormula.Proofs.Scan.Accounting

/-!
# Items up to a closing parenthesis

What a scan carries over a closing parenthesis is one bit, so a text up to its first closing
parenthesis and the text behind it can be cut into items apart.  There is one way in which the text
in front reaches over the parenthesis: outside of a function's arguments, an item that has no end of
its own goes on to the end of all the text.  Such an item is the last one of its text, and behind a
name there is none (`items_append`).
-/

namespace ColumnFormula.Scan

open Text Token

/-! ## Items without an end of their own -/

namespace Item

/-- Whether the item is a bracket or a quote that is not closed. -/
def isUnclosed : Item → Bool
  | bracket _ closed => !closed
  | unclosed _ _ => true
  | _ => false

/-- Whether nothing but the end of its region ends the item. -/
def isCutOff (it : Item) : Bool :=
  it.isUnclosed || it.isDropped

/-- An item without an end of its own takes all that is left of its region. -/
theorem source_of_isCutOff {c : Char} {rest : List Char} (h : (first c rest).isCutOff = true) :
    (first c rest).source = c :: rest := by
  cases hrole : Role.of c with
  | bracket =>
    obtain rfl := Role.of_eq_bracket_iff.1 hrole
    by_cases hmem : ']' ∈ rest
    · obtain ⟨inner, after, rfl, hnot⟩ := List.eq_append_cons_of_mem hmem
      rw [first_bracket hnot] at h
      exact absurd h Bool.false_ne_true
    · rw [first_bracket_cut hmem, source, if_neg Bool.false_ne_true, List.append_nil]
  | quote =>
    have hquote := isQuote_of_role hrole
    by_cases hmem : c ∈ rest
    · obtain ⟨body, after, rfl, hnot⟩ := List.eq_append_cons_of_mem hmem
      rw [first_string hquote hnot] at h
      exact absurd h Bool.false_ne_true
    · rw [first_unclosed hquote hmem]
      rfl
  | unexpected =>
    rw [first_of_role hrole]
    rfl
  | _ =>
    rw [first_of_role hrole] at h
    exact absurd h Bool.false_ne_true

theorem behind_of_isCutOff {c : Char} {rest : List Char} (h : (first c rest).isCutOff = true) :
    behind c rest = [] := by
  apply behind_eq
  rw [source_of_isCutOff h, List.append_nil]

theorem isName_of_isCutOff {it : Item} (h : it.isCutOff = true) : it.isName = false := by
  cases it with
  | name text call => exact absurd h Bool.false_ne_true
  | _ => rfl

/-- A name and its parenthesis are the same when the end of the region comes behind. -/
theorem ofRole_name_append (c : Char) (rest : List Char) {tail : List Char}
    (hend : EndsRegion true tail) : ofRole c (rest ++ tail) .name = ofRole c rest .name := by
  have htail : tail.takeWhile isNameChar = [] ∧ (tail.head? == some '(') = false := by
    rcases hend with rfl | ⟨_, hhead⟩
    · exact ⟨rfl, rfl⟩
    · obtain ⟨more, rfl⟩ := List.head?_eq_some_iff.1 hhead
      exact ⟨List.takeWhile_cons_of_neg (by decide), rfl⟩
  have htake : (rest ++ tail).takeWhile isNameChar = rest.takeWhile isNameChar := by
    rw [List.takeWhile_append]
    split
    · rename_i hall
      rw [htail.1, List.append_nil]
      exact ((List.takeWhile_prefix isNameChar).eq_of_length hall).symm
    · rfl
  have hle := (List.takeWhile_prefix (l := rest) isNameChar).length_le
  rw [ofRole, ofRole, htake]
  show name _ _ = name _ _
  rw [List.drop_append_of_le_length hle]
  -- Where the name takes all of the text, what follows it is the end of the region.
  cases rest.drop (rest.takeWhile isNameChar).length with
  | nil =>
    rw [List.nil_append, htail.2]
    rfl
  | cons d more => rfl

/-- An item with an end of its own is the same when the end of its region comes behind. -/
theorem first_append {c : Char} {rest tail : List Char} (h : (first c rest).isCutOff = false)
    (hend : EndsRegion true tail) : first c (rest ++ tail) = first c rest := by
  cases hrole : Role.of c with
  | digit =>
    rw [first_of_role hrole, first_of_role hrole, ofRole, ofRole, numberTail_append hend]
  | bracket =>
    obtain rfl := Role.of_eq_bracket_iff.1 hrole
    by_cases hmem : ']' ∈ rest
    · obtain ⟨inner, after, rfl, hnot⟩ := List.eq_append_cons_of_mem hmem
      rw [List.append_assoc, List.cons_append, first_bracket hnot, first_bracket hnot]
    · rw [first_bracket_cut hmem] at h
      exact absurd h.symm Bool.false_ne_true
  | quote =>
    have hquote := isQuote_of_role hrole
    by_cases hmem : c ∈ rest
    · obtain ⟨body, after, rfl, hnot⟩ := List.eq_append_cons_of_mem hmem
      rw [List.append_assoc, List.cons_append, first_string hquote hnot, first_string hquote hnot]
    · rw [first_unclosed hquote hmem] at h
      exact absurd h.symm Bool.false_ne_true
  | name =>
    rw [first_of_role hrole, first_of_role hrole]
    exact ofRole_name_append c rest hend
  | unexpected =>
    rw [first_of_role hrole] at h
    exact absurd h.symm Bool.false_ne_true
  | _ =>
    rw [first_of_role hrole, first_of_role hrole]
    rfl

end Item

/-! ## The items of the joined text -/

theorem items_cons_outside (c : Char) (rest : List Char) :
    items false (c :: rest) =
      Item.first c rest :: items (Item.first c rest).isName (Item.behind c rest) := by
  rw [items_cons fun h => Bool.false_ne_true h.1]
  rfl

/-- The first item of a joined text, if it is one of the text in front, and what is behind it. -/
theorem items_cons_append {c : Char} {rest tail : List Char}
    (h : (Item.first c rest).isCutOff = false) (hend : EndsRegion true tail) :
    items false (c :: rest ++ tail) =
      Item.first c rest :: items (Item.first c rest).isName (Item.behind c rest ++ tail) := by
  have hle : (Item.first c rest).source.length - 1 ≤ rest.length := by
    have := Item.length_behind c rest
    omega
  rw [List.cons_append, items_cons_outside, Item.behind, Item.first_append h hend,
    List.drop_append_of_le_length hle]
  rfl

/-- Behind a name, or without an item that has no end of its own, a text has its own items in front
of the end of a region, and whether there is a name in them is all that is carried on. -/
theorem items_append {text tail : List Char} (hnot : ')' ∉ text) (hend : EndsRegion true tail)
    (h : (items false text).any Item.isName = true ∨ ∀ it ∈ items false text, it.isCutOff = false) :
    items false (text ++ tail) =
      items false text ++ items ((items false text).any Item.isName) tail := by
  induction hn : text.length using Nat.strong_induction_on generalizing text with
  | _ n ih =>
    cases text with
    | nil =>
      rw [items_nil]
      rfl
    | cons c rest =>
      have hbehind : ')' ∉ Item.behind c rest := fun hmem =>
        hnot (List.mem_cons_of_mem c (List.mem_of_mem_drop hmem))
      have hlength := Item.length_behind_le c rest
      rw [List.length_cons] at hn
      -- The item is not the last one that is met, or has an end of its own.
      have hends : (Item.first c rest).isCutOff = false := by
        rw [items_cons_outside] at h
        rcases h with h | h
        · rw [Bool.eq_false_iff]
          intro hcut
          rw [Item.behind_of_isCutOff hcut, items_nil] at h
          simp [Item.isName_of_isCutOff hcut] at h
        · exact h _ List.mem_cons_self
      rw [items_cons_append hends hend]
      rw [items_cons_outside] at h ⊢
      rw [List.any_cons, List.cons_append]
      congr 1
      cases hname : (Item.first c rest).isName with
      | true => exact items_arguments hbehind true hend
      | false =>
        rw [hname, List.any_cons, hname, Bool.false_or] at h
        refine ih _ (by omega) hbehind ?_ rfl
        exact h.imp id fun hall it hit => hall it (List.mem_cons_of_mem _ hit)

/-- A closing parenthesis is one, and ends a function's arguments or does not. -/
theorem items_cons_closing (inside : Bool) (rest : List Char) :
    items inside (')' :: rest) = .closing inside :: items false rest := by
  cases inside with
  | true => exact items_closing rest
  | false =>
    have hrole : Role.of ')' = .closing := by decide
    rw [items_cons_outside, Item.behind, Item.first_of_role hrole]
    rfl

/-- Without a name in front, an unexpected character takes all that comes behind. -/
theorem items_append_of_isDropped {text tail : List Char} (hend : EndsRegion true tail)
    (hname : (items false text).any Item.isName = false)
    (hdropped : (items false text).any Item.isDropped = true) :
    ∃ front c body, items false text = front ++ [.dropped c body] ∧
      front.any Item.isDropped = false ∧
      items false (text ++ tail) = front ++ [.dropped c (body ++ tail)] := by
  induction hn : text.length using Nat.strong_induction_on generalizing text with
  | _ n ih =>
    cases text with
    | nil =>
      rw [items_nil] at hdropped
      exact absurd hdropped Bool.false_ne_true
    | cons c rest =>
      have hlength := Item.length_behind_le c rest
      rw [List.length_cons] at hn
      rw [items_cons_outside, List.any_cons] at hname hdropped
      obtain ⟨hfirst, hrest⟩ := Bool.or_eq_false_iff.1 hname
      rw [hfirst] at hrest hdropped
      cases hcut : (Item.first c rest).isCutOff with
      | false =>
        have hkept : (Item.first c rest).isDropped = false := (Bool.or_eq_false_iff.1 hcut).2
        rw [hkept, Bool.false_or] at hdropped
        obtain ⟨front, d, body, hitems, hfront, happend⟩ := ih _ (by omega) hrest hdropped rfl
        refine ⟨Item.first c rest :: front, d, body, ?_, ?_, ?_⟩
        · rw [items_cons_outside, hfirst, hitems]
          rfl
        · rw [List.any_cons, hkept, hfront]
          rfl
        · rw [items_cons_append hcut hend, hfirst, happend]
          rfl
      | true =>
        -- Nothing is behind the item, so it is the one that is dropped.
        rw [Item.behind_of_isCutOff hcut, items_nil, List.any_nil, Bool.or_false] at hdropped
        have hrole := Item.role_of_isDropped hdropped
        refine ⟨[], c, rest, ?_, rfl, ?_⟩
        · rw [items_cons_outside, hfirst, Item.behind_of_isCutOff hcut, items_nil,
            Item.first_of_role hrole]
          rfl
        · have hwhole : (Item.first c (rest ++ tail)) = .dropped c (rest ++ tail) :=
            Item.first_of_role hrole _
          have hcut' : (Item.first c (rest ++ tail)).isCutOff = true := by rw [hwhole]; rfl
          rw [List.cons_append, items_cons_outside, Item.behind_of_isCutOff hcut', items_nil, hwhole]
          rfl

end ColumnFormula.Scan
