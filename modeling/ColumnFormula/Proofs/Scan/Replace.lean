import ColumnFormula.Proofs.Scan.Append

/-!
# Items when the text behind them is replaced

An item ends by its own text, or where its region ends; all that it asks of the text behind is not to
go on with it (`Item.StopsAt`).  So the items of a text stay what they are when the text behind some of
them is replaced, if only the new text does not go on with the last of them (`items_replace`).  What
they hand on to the new text is whether a name waits for a closing parenthesis (`carry`).
-/

namespace ColumnFormula.Scan

open Text Token

/-! ## What is carried on -/

namespace Item

/-- Whether a name waits for a closing parenthesis behind the item, if one did in front of it or not. -/
def carries (inside : Bool) : Item → Bool
  | closing _ => false
  | name _ _ => true
  | _ => inside

theorem carries_of_isCutOff {it : Item} (h : it.isCutOff = true) (inside : Bool) :
    it.carries inside = inside := by
  cases it with
  | closing ends => exact absurd h Bool.false_ne_true
  | name text call => exact absurd h Bool.false_ne_true
  | _ => rfl

theorem carries_first {inside : Bool} {c : Char} (h : ¬ (inside = true ∧ c = ')'))
    (rest : List Char) :
    (first c rest).carries inside = (inside || (first c rest).isName) := by
  cases hrole : Role.of c with
  | closing =>
    rw [first_of_role hrole]
    cases inside with
    | false => rfl
    | true => exact absurd ⟨rfl, Role.of_eq_closing_iff.1 hrole⟩ h
  | quote =>
    rw [first_of_role hrole, ofRole]
    split <;> exact (Bool.or_false inside).symm
  | name =>
    rw [first_of_role hrole]
    exact (Bool.or_true inside).symm
  | _ =>
    rw [first_of_role hrole]
    exact (Bool.or_false inside).symm

end Item

/-- Whether a name waits for a closing parenthesis behind the items. -/
def carry (inside : Bool) (its : List Item) : Bool :=
  its.foldl Item.carries inside

@[simp] theorem carry_nil (inside : Bool) : carry inside [] = inside := rfl

@[simp] theorem carry_cons (inside : Bool) (it : Item) (its : List Item) :
    carry inside (it :: its) = carry (it.carries inside) its := rfl

theorem carry_concat (inside : Bool) (its : List Item) (it : Item) :
    carry inside (its ++ [it]) = it.carries (carry inside its) := by
  rw [carry, List.foldl_append]
  rfl

/-! ## Where an item stops -/

namespace Item

/-- Whether the item does not go on in the rest of its region. -/
def StopsAt (rest : List Char) : Item → Prop
  | number _ => numberTail rest = []
  | name _ call => call = true ∨ ∀ d ∈ rest.head?, isNameChar d = false ∧ d ≠ '('
  | it => it.isCutOff = true → rest = []

variable {c : Char} {own rest : List Char}

/-- A name goes on as long as characters of a name do, and is a call if a parenthesis is next. -/
theorem first_name_or_call (hrole : Role.of c = .name) (text : List Char) :
    ∃ more after, (∀ d ∈ more, isNameChar d = true) ∧
      ((text = more ++ after ∧ (∀ d ∈ after.head?, isNameChar d = false ∧ d ≠ '(') ∧
          first c text = .name (c :: more) false) ∨
        (text = more ++ '(' :: after ∧ first c text = .name (c :: more) true)) := by
  have hmore : ∀ d ∈ text.takeWhile isNameChar, isNameChar d = true :=
    fun _ hd => List.mem_takeWhile_imp hd
  have hafter : ∀ d ∈ (text.dropWhile isNameChar).head?, isNameChar d = false := by
    intro d hd
    have hnot := List.head?_dropWhile_not isNameChar text
    rw [hd] at hnot
    exact hnot
  have hsplit := List.takeWhile_append_dropWhile (p := isNameChar) (l := text)
  revert hmore hafter hsplit
  generalize text.takeWhile isNameChar = more
  generalize text.dropWhile isNameChar = after
  rintro hmore hafter rfl
  by_cases hopen : after.head? = some '('
  · obtain ⟨after, rfl⟩ := List.head?_eq_some_iff.1 hopen
    exact ⟨more, after, hmore, Or.inr ⟨rfl, first_call hrole hmore after⟩⟩
  · have hrest : ∀ d ∈ after.head?, isNameChar d = false ∧ d ≠ '(' := by
      intro d hd
      refine ⟨hafter d hd, ?_⟩
      rintro rfl
      exact hopen hd
    exact ⟨more, after, hmore, Or.inl ⟨rfl, hrest, first_name hrole hmore hrest⟩⟩

/-- An item that is read from a text of its own is read in front of a rest that it stops at. -/
theorem first_of_stopsAt (hown : (first c own).source = c :: own)
    (hstop : (first c own).StopsAt rest) : first c (own ++ rest) = first c own := by
  cases hrole : Role.of c with
  | digit =>
    rw [first_of_role hrole] at hown hstop
    have htail : numberTail own = own := (List.cons.inj hown).2
    have hnumber := numberText_numberTail (Role.of_eq_digit_iff.1 hrole) own
    have hrest : numberTail rest = [] := hstop
    rw [htail] at hnumber
    rw [first_of_role hrole, first_of_role hrole, ofRole, ofRole, hnumber.numberTail_append, htail,
      hrest, List.append_nil]
  | bracket =>
    obtain rfl := Role.of_eq_bracket_iff.1 hrole
    by_cases hmem : ']' ∈ own
    · obtain ⟨inner, after, rfl, hnot⟩ := List.eq_append_cons_of_mem hmem
      rw [List.append_assoc, List.cons_append, first_bracket hnot, first_bracket hnot]
    · rw [first_bracket_cut hmem] at hstop
      rw [hstop rfl, List.append_nil]
  | quote =>
    have hquote := isQuote_of_role hrole
    by_cases hmem : c ∈ own
    · obtain ⟨body, after, rfl, hnot⟩ := List.eq_append_cons_of_mem hmem
      rw [List.append_assoc, List.cons_append, first_string hquote hnot, first_string hquote hnot]
    · rw [first_unclosed hquote hmem] at hstop
      rw [hstop rfl, List.append_nil]
  | name =>
    obtain ⟨more, after, hmore, ⟨rfl, _, hfirst⟩ | ⟨rfl, hfirst⟩⟩ := first_name_or_call hrole own
    · rw [hfirst] at hown hstop ⊢
      have hafter : after = [] := by simpa [source] using hown
      rcases hstop with hcall | hrest
      · exact absurd hcall Bool.false_ne_true
      · rw [hafter, List.append_nil, first_name hrole hmore hrest]
    · rw [List.append_assoc, List.cons_append, first_call hrole hmore, hfirst]
  | unexpected =>
    rw [first_of_role hrole] at hstop
    rw [hstop rfl, List.append_nil]
  | _ =>
    rw [first_of_role hrole, first_of_role hrole]
    rfl

/-- An item is the one that is read from its own text, and stops at what is behind it. -/
theorem stopsAt_of_first (h : (first c (own ++ rest)).source = c :: own) :
    first c own = first c (own ++ rest) ∧ (first c own).StopsAt rest := by
  cases hrole : Role.of c with
  | digit =>
    rw [first_of_role hrole] at h
    have htail : numberTail (own ++ rest) = own := (List.cons.inj h).2
    have hnumber := numberText_numberTail (Role.of_eq_digit_iff.1 hrole) (own ++ rest)
    rw [htail] at hnumber
    have hown : numberTail own = own := by
      have hnil := hnumber.numberTail_append []
      rwa [List.append_nil, numberTail, List.append_nil] at hnil
    rw [first_of_role hrole, first_of_role hrole, ofRole, ofRole, htail, hown]
    refine ⟨rfl, ?_⟩
    rw [hnumber.numberTail_append] at htail
    exact List.append_cancel_left (htail.trans (List.append_nil own).symm)
  | bracket =>
    obtain rfl := Role.of_eq_bracket_iff.1 hrole
    by_cases hmem : ']' ∈ own
    · obtain ⟨inner, after, rfl, hnot⟩ := List.eq_append_cons_of_mem hmem
      rw [List.append_assoc, List.cons_append, first_bracket hnot, first_bracket hnot]
      exact ⟨rfl, fun hcut => absurd hcut Bool.false_ne_true⟩
    · have hrest : rest = [] := by
        by_cases hbehind : ']' ∈ rest
        · obtain ⟨inner, after, rfl, hnot⟩ := List.eq_append_cons_of_mem hbehind
          rw [← List.append_assoc, first_bracket (by simp [hmem, hnot])] at h
          have hlength := congrArg List.length h
          simp [source] at hlength
        · rw [first_bracket_cut (by simp [hmem, hbehind])] at h
          simpa [source] using h
      rw [hrest, List.append_nil, first_bracket_cut hmem]
      exact ⟨rfl, fun _ => rfl⟩
  | quote =>
    have hquote := isQuote_of_role hrole
    by_cases hmem : c ∈ own
    · obtain ⟨body, after, rfl, hnot⟩ := List.eq_append_cons_of_mem hmem
      rw [List.append_assoc, List.cons_append, first_string hquote hnot, first_string hquote hnot]
      exact ⟨rfl, fun hcut => absurd hcut Bool.false_ne_true⟩
    · have hrest : rest = [] := by
        by_cases hbehind : c ∈ rest
        · obtain ⟨body, after, rfl, hnot⟩ := List.eq_append_cons_of_mem hbehind
          rw [← List.append_assoc, first_string hquote (by simp [hmem, hnot])] at h
          have hlength := congrArg List.length h
          simp [source] at hlength
        · rw [first_unclosed hquote (by simp [hmem, hbehind])] at h
          simpa [source] using h
      rw [hrest, List.append_nil, first_unclosed hquote hmem]
      exact ⟨rfl, fun _ => rfl⟩
  | name =>
    obtain ⟨more, after, hmore, ⟨htext, hafter, hfirst⟩ | ⟨htext, hfirst⟩⟩ :=
      first_name_or_call hrole (own ++ rest)
    · rw [hfirst] at h
      obtain rfl : more = own := by simpa [source] using h
      obtain rfl := List.append_cancel_left htext
      have hown : first c (more ++ []) = .name (c :: more) false :=
        first_name hrole hmore fun d hd => absurd hd (by simp)
      rw [List.append_nil] at hown
      rw [hfirst, hown]
      exact ⟨rfl, Or.inr hafter⟩
    · rw [hfirst] at h
      obtain rfl : own = more ++ ['('] := by simpa [source] using h.symm
      rw [hfirst, first_call hrole hmore]
      exact ⟨rfl, Or.inl rfl⟩
  | unexpected =>
    rw [first_of_role hrole] at h
    have hrest : rest = [] := by simpa [ofRole, source] using h
    rw [hrest, List.append_nil, first_of_role hrole]
    exact ⟨rfl, fun _ => rfl⟩
  | _ =>
    rw [first_of_role hrole, first_of_role hrole]
    exact ⟨rfl, fun hcut => absurd hcut Bool.false_ne_true⟩

end Item

/-! ## Regions -/

theorem reach_cons {inside : Bool} {c : Char} (h : ¬ (inside = true ∧ c = ')'))
    (rest : List Char) : reach inside (c :: rest) = c :: reach inside rest := by
  cases inside with
  | false => rfl
  | true =>
    have hc : c ≠ ')' := fun hc => h ⟨rfl, hc⟩
    exact List.takeWhile_cons_of_pos (p := (· != ')')) (bne_iff_ne.2 hc)

theorem inRegion_of_isPrefix {inside : Bool} {front text : List Char}
    (h : front <+: reach inside text) : InRegion inside front := by
  obtain ⟨_, _, hregion, _⟩ := exists_reach inside text
  exact fun hinside hmem => hregion hinside (h.subset hmem)

theorem reach_eq_nil_iff {inside : Bool} {text : List Char} :
    reach inside text = [] ↔ EndsRegion inside text := by
  constructor
  · intro h
    obtain ⟨tail, htail, _, hend⟩ := exists_reach inside text
    rw [htail, h]
    exact hend
  · intro h
    have hempty : reach inside ([] ++ text) = [] := reach_append (fun _ => List.not_mem_nil) h
    exact hempty

/-- The end of a region is no part of a number. -/
theorem numberTail_reach (inside : Bool) (text : List Char) :
    numberTail (reach inside text) = numberTail text := by
  obtain ⟨tail, htail, _, hend⟩ := exists_reach inside text
  conv => rhs; rw [htail]
  exact (numberTail_append hend _).symm

theorem source_ne_nil_of_mem_items {inside : Bool} {text : List Char} :
    ∀ it ∈ items inside text, it.source ≠ [] := by
  fun_induction items inside text with
  | case1 => simp
  | case2 inside c rest h ih => exact List.forall_mem_cons.2 ⟨List.cons_ne_nil _ _, ih⟩
  | case3 inside c rest h it ih =>
    refine List.forall_mem_cons.2 ⟨?_, ih⟩
    exact List.ne_nil_of_length_pos (Item.one_le_length_source_first c (reach inside rest))

namespace Item

/-- An item is still the first one when the text behind it is replaced by one where it stops as it
stopped before. -/
theorem first_replace {it : Item} {inside : Bool} {c : Char} {own rest rest' : List Char}
    (hfirst : first c (reach inside (own ++ rest)) = it) (hsource : it.source = c :: own)
    (hstop : it.StopsAt (reach inside rest) → it.StopsAt (reach inside rest')) :
    first c (reach inside (own ++ rest')) = it := by
  have hregion : InRegion inside own := by
    have hprefix := prefix_source_first c (reach inside (own ++ rest))
    rw [hfirst, hsource, List.prefix_cons_inj] at hprefix
    exact inRegion_of_isPrefix hprefix
  rw [reach_append_left hregion] at hfirst ⊢
  obtain ⟨hown, hstops⟩ := stopsAt_of_first (by rw [hfirst, hsource])
  rw [hfirst] at hown
  subst hown
  exact first_of_stopsAt hsource (hstop hstops)

/-- Where an item stops in front of a text, it stops in front of another that begins as the text
does.  A number looks one character further, for a point goes on with it if a digit is next. -/
theorem StopsAt.replace {it : Item} {inside : Bool} {front rest rest' : List Char}
    (h : it.StopsAt (reach inside (front ++ rest)))
    (hfront : front = [] → it.StopsAt (reach inside rest'))
    (hdigit : (rest'.head?.any Char.isDigit) = false) :
    it.StopsAt (reach inside (front ++ rest')) := by
  cases front with
  | nil => exact hfront rfl
  | cons a front =>
    rw [List.cons_append] at h ⊢
    by_cases hclose : inside = true ∧ a = ')'
    -- The region ends before anything that is replaced.
    · obtain ⟨rfl, rfl⟩ := hclose
      exact h
    · cases it with
      | number text =>
        have hstop : numberTail (a :: (front ++ rest)) = [] := by
          rw [← numberTail_reach inside]
          exact h
        have hpoint : ((front ++ rest').head?.any Char.isDigit) = true →
            ((front ++ rest).head?.any Char.isDigit) = true := by
          cases front with
          | nil =>
            intro hnext
            rw [List.nil_append, hdigit] at hnext
            cases hnext
          | cons b front => exact id
        show numberTail (reach inside (a :: (front ++ rest'))) = []
        rw [numberTail_reach]
        rw [numberTail] at hstop ⊢
        split at hstop
        · cases hstop
        · rename_i hd
          split at hstop
          · cases hstop
          · rename_i hnot
            rw [if_neg hd, if_neg fun hnext => hnot ⟨hnext.1, hpoint hnext.2⟩]
      | name text call =>
        rw [reach_cons hclose] at h ⊢
        exact h
      | _ =>
        rw [reach_cons hclose] at h
        exact fun hcut => absurd (h hcut) (List.cons_ne_nil _ _)

/-- An item that is not cut off in front of a text stops in front of one that begins with a character
that no name and no number goes on with. -/
theorem StopsAt.of_head {it : Item} {inside : Bool} {rest more : List Char} {d : Char}
    (h : it.StopsAt (reach inside rest)) (hopen : ¬ EndsRegion (it.carries inside) rest)
    (hname : isNameChar d = false) (hparen : d ≠ '(')
    (hnumber : ∀ text, it = .number text → numberTail (d :: more) = []) :
    it.StopsAt (reach inside (d :: more)) := by
  have hcut : it.isCutOff = true → reach inside rest ≠ [] := by
    intro hcut hnil
    rw [carries_of_isCutOff hcut] at hopen
    exact hopen (reach_eq_nil_iff.1 hnil)
  cases it with
  | number text =>
    show numberTail _ = []
    rw [numberTail_reach]
    exact hnumber text rfl
  | name text call =>
    refine Or.inr fun e he => ?_
    obtain rfl := Option.some.inj (reach_head? he)
    exact ⟨hname, hparen⟩
  | _ => exact fun hcutOff => absurd (h hcutOff) (hcut hcutOff)

end Item

/-! ## The items -/

/-- The text behind some items may be replaced by one that begins with a character that the last of
them does not go on with. -/
theorem items_replace {inside : Bool} {before after : List Item} {rest more : List Char} {d : Char}
    (hitems : items inside (before.flatMap Item.source ++ rest) = before ++ after)
    (hopen : ¬ EndsRegion (carry inside before) rest)
    (hname : isNameChar d = false) (hparen : d ≠ '(')
    (hnumber : ∀ text, before.getLast? = some (.number text) → numberTail (d :: more) = []) :
    items inside (before.flatMap Item.source ++ d :: more) =
      before ++ items (carry inside before) (d :: more) := by
  have hdigit : d.isDigit = false := by
    rw [isNameChar, Char.isAlphanum, Bool.or_assoc, Bool.or_assoc, Bool.or_eq_false_iff,
      Bool.or_eq_false_iff] at hname
    exact hname.2.1
  -- On the items in front; what is carried over each of them is what the next one is cut with.
  induction before generalizing inside with
  | nil => rfl
  | cons it before ih =>
    have hne : ∀ next ∈ it :: before, next.source ≠ [] := by
      intro next hnext
      apply source_ne_nil_of_mem_items next
      rw [hitems]
      exact List.mem_append_left after hnext
    obtain ⟨c, own, hsource⟩ := List.exists_cons_of_ne_nil (hne it List.mem_cons_self)
    have hlast : ∀ text, before.getLast? = some (.number text) → numberTail (d :: more) = [] :=
      fun text htext => hnumber text (by rw [List.getLast?_cons, htext]; rfl)
    rw [List.flatMap_cons, hsource, List.append_assoc, List.cons_append] at hitems ⊢
    by_cases hclose : inside = true ∧ c = ')'
    · obtain ⟨rfl, rfl⟩ := hclose
      rw [items_closing] at hitems ⊢
      obtain ⟨rfl, hrest⟩ := List.cons.inj hitems
      obtain rfl : own = [] := (List.cons.inj hsource).2.symm
      exact congrArg (Item.closing true :: ·) (ih hrest hopen hlast)
    · rw [items_cons hclose] at hitems ⊢
      obtain ⟨hfirst, hrest⟩ := List.cons.inj hitems
      have hcarries : it.carries inside = (inside || it.isName) := by
        rw [← hfirst]
        exact Item.carries_first hclose _
      have hdrop : ∀ text, (own ++ text).drop (it.source.length - 1) = text := by
        intro text
        rw [hsource]
        exact List.drop_left
      -- Only behind the last of the items does the new text itself come next.
      have hlone : before.flatMap Item.source = [] → before = [] := by
        intro hnil
        cases before with
        | nil => rfl
        | cons next before =>
          exact absurd (List.append_eq_nil_iff.1 hnil).1 (hne next (by simp))
      have hfirst' : Item.first c (reach inside (own ++ (before.flatMap Item.source ++ d :: more))) =
          it := by
        refine Item.first_replace hfirst hsource fun hstop => hstop.replace ?_ ?_
        · intro hnil
          obtain rfl := hlone hnil
          exact hstop.of_head hopen hname hparen fun text htext => hnumber text (by rw [htext]; rfl)
        · rw [List.head?_cons, Option.any_some, hdigit]
      rw [hfirst, hdrop, ← hcarries] at hrest
      rw [hfirst', hdrop, ← hcarries, carry_cons, ih hrest hopen hlast, List.cons_append]

end ColumnFormula.Scan
