import ColumnFormula.Proofs.Scan.Edit

/-!
# What an unexpected character takes with it

An unexpected character takes the rest of its region with it, and nothing of that rest is looked at:
it can be replaced by any other text that does not end the region sooner.  There is one text that an
unexpected character itself is looked at with.  A point behind a number is part of the number if a
digit is next, so a point that is met there as an unexpected character stays one only if the new text
does not begin with a digit.
-/

namespace ColumnFormula

/-- Where a region of the source ends in the expression: at the closing parenthesis, or at the end. -/
def Source.regionEnd (s : Source) (stop : Nat) : Nat :=
  if stop < s.length then s.place stop else s.expression.length

namespace Scan

open Source Text Token

/-- Whether a number ends where the configuration stands. -/
def Config.BehindNumber (s : Source) (c : Config) : Prop :=
  c.tokens.back?.any (·.kind == .number) = true ∧ s.holds Char.isDigit (c.position - 1) = true

/-! ## Numbers in front -/

theorem NumberText.exists_concat {text : List Char} (h : NumberText text) :
    ∃ init d, text = init ++ [d] ∧ d.isDigit = true := by
  induction h with
  | @digit d h => exact ⟨[], d, rfl, h⟩
  | @digits d rest h _ ih =>
    obtain ⟨init, last, rfl, hlast⟩ := ih
    exact ⟨d :: init, last, rfl, hlast⟩
  | @point d rest h _ ih =>
    obtain ⟨init, last, rfl, hlast⟩ := ih
    exact ⟨d :: '.' :: init, last, rfl, hlast⟩

theorem Item.numberText_of_first {c : Char} {rest text : List Char}
    (h : first c rest = .number text) : NumberText text := by
  cases hrole : Role.of c with
  | digit =>
    rw [first_of_role hrole] at h
    obtain rfl := Item.number.inj h
    exact numberText_numberTail (Role.of_eq_digit_iff.1 hrole) rest
  | quote =>
    rw [first_of_role hrole, ofRole] at h
    split at h <;> cases h
  | _ =>
    rw [first_of_role hrole] at h
    cases h

theorem numberText_of_mem_items {inside : Bool} {text number : List Char}
    (h : Item.number number ∈ items inside text) : NumberText number := by
  fun_induction items inside text with
  | case1 => cases h
  | case2 inside c rest hclose ih =>
    rcases List.mem_cons.1 h with hfirst | hrest
    · cases hfirst
    · exact ih hrest
  | case3 inside c rest hclose it ih =>
    rcases List.mem_cons.1 h with hfirst | hrest
    · exact Item.numberText_of_first hfirst.symm
    · exact ih hrest

variable {s : Source} {c : Config}

/-- The last item is a number only if a number ends where the configuration stands. -/
theorem Config.Behind.behindNumber {before : List Item} (h : c.Behind s before) {text : List Char}
    (hlast : before.getLast? = some (.number text)) : c.BehindNumber s := by
  obtain ⟨init, rfl⟩ := List.getLast?_eq_some_iff.1 hlast
  have hmem : Item.number text ∈ items false (s.chars 0 s.length) := by
    rw [h.items_eq]
    simp
  obtain ⟨most, d, rfl, hd⟩ := (numberText_of_mem_items hmem).exists_concat
  constructor
  -- The number is the last token, and its last digit the last character in front.
  · have htokens : c.tokens.toList =
        placed s (findingsOf 0 (init ++ [.number (most ++ [d])])).tokens :=
      congrArg Scan.tokens h.produced
    have hback : c.tokens.toList.getLast? =
        some (.ofText .number (String.ofList (most ++ [d]))) := by
      rw [htokens, findingsOf_append, Findings.tokens_append, placed, List.map_append]
      exact List.getLast?_concat
    rw [Array.getLast?_toList] at hback
    rw [hback]
    rfl
  · have hsource := h.source_eq
    rw [List.flatMap_append, List.flatMap_singleton, Item.source, ← List.append_assoc] at hsource
    have hlength := congrArg List.length hsource
    rw [length_chars s 0 h.position_le, List.length_append, List.length_singleton] at hlength
    have hdrop := drop_chars s 0 c.position (c.position - 1)
    have hend : c.position - 1 = (init.flatMap Item.source ++ most).length := by omega
    rw [← hsource, hend, List.drop_left, ← hend, Nat.zero_add] at hdrop
    rw [holds, (chars_eq_cons hdrop.symm).2.1]
    exact hd

/-! ## The end of the region -/

theorem items_dropped {inside : Bool} {character : Char} (hrole : Role.of character = .unexpected)
    {body tail : List Char} (hbody : InRegion inside body) (hend : EndsRegion inside tail) :
    items inside (character :: (body ++ tail)) = .dropped character body :: items inside tail := by
  have hfirst : Item.first character (reach inside (body ++ tail)) = .dropped character body := by
    rw [reach_append hbody hend, Item.first_of_role hrole]
    rfl
  rw [items_cons (not_closing_of_role hrole rfl), hfirst]
  show Item.dropped character body :: items (inside || false) ((body ++ tail).drop body.length) = _
  rw [Bool.or_false, List.drop_left]

variable {expression : String} {offset stop : Nat} {character : Char} {before : List Item}
  {front rest : List Char}

/-- The expression behind a character that is read, cut where the region ends. -/
theorem CutAt.exists_regionEnd
    (h : CutAt expression offset c stop before front character rest)
    (hstop : c.regions.head? = some stop) :
    ∃ stretch back, rest = stretch ++ back ∧ InRegion (carry false before) (strip stretch) ∧
      EndsRegion (carry false before) (strip back) ∧
      (ofExpression expression offset).regionEnd stop = front.length + 1 + stretch.length := by
  obtain ⟨tail, htail, hregion, hend⟩ := exists_reach (carry false before) (strip rest)
  obtain ⟨hle, hlength, _, _⟩ :=
    chars_openRegions h.behind.position_le (h.behind.head_regions hstop)
  have hfront : strip (front ++ [character]) = strip front ++ [character] := by
    rw [strip_append, strip_cons_of_kept h.kept, strip_nil]
  have hposition : c.position = (strip front).length := by
    rw [← h.source_eq, h.behind.source_eq, length_chars _ 0 h.behind.position_le, Nat.sub_zero]
  have hregionLength := congrArg List.length h.region_eq
  rw [length_chars _ _ hlength, List.length_cons] at hregionLength
  have hall : (ofExpression expression offset).length =
      (strip front).length + 1 + (strip rest).length := by
    have hchars := congrArg List.length (chars_ofExpression expression offset)
    rw [length_chars _ 0 (Nat.le_refl _), h.text_eq, strip_append, strip_cons_of_kept h.kept,
      List.length_append, List.length_cons] at hchars
    omega
  have hrest := congrArg List.length htail
  rw [List.length_append] at hrest
  cases tail with
  | nil =>
    -- The region ends with the expression, behind any line controls that are left of it.
    rw [List.append_nil] at htail
    refine ⟨rest, [], (List.append_nil rest).symm, htail ▸ hregion, Or.inl rfl, ?_⟩
    have hnot : ¬ stop < (ofExpression expression offset).length := by
      rw [List.length_nil] at hrest
      omega
    have htext := congrArg List.length h.text_eq
    rw [List.length_append, List.length_cons] at htext
    rw [regionEnd, if_neg hnot]
    show expression.length = _
    rw [← String.length_toList]
    omega
  | cons d tail =>
    -- The closing parenthesis is kept, so the expression is cut in front of it.
    rw [List.length_cons] at hrest
    have hlt : (reach (carry false before) (strip rest)).length < (strip rest).length := by omega
    obtain ⟨stretch, e, back, hcut, he, hplace, hstretch⟩ := exists_split rest hlt
    have hin : strip stretch = reach (carry false before) (strip rest) := by
      rw [hstretch]
      conv => lhs; arg 2; rw [htail]
      exact List.take_left
    have hback : strip (e :: back) = d :: tail := by
      have hsplit : strip rest = strip stretch ++ strip (e :: back) := by rw [hcut, strip_append]
      rw [hin] at hsplit
      exact List.append_cancel_left (hsplit.symm.trans htail)
    refine ⟨stretch, e :: back, hcut, hin ▸ hregion, hback ▸ hend, ?_⟩
    have hstopPlace : stop = (strip (front ++ [character])).length +
        (reach (carry false before) (strip rest)).length := by
      rw [hfront, List.length_append, List.length_singleton]
      omega
    have hexpression : expression.toList = (front ++ [character]) ++ rest := by
      rw [h.text_eq, List.append_assoc, List.singleton_append]
    rw [regionEnd, if_pos (by omega), place_ofExpression, hexpression, hstopPlace,
      sourceIndex_append_right _ hlt, hplace, List.length_append, List.length_singleton]

/-! ## The two scans -/

theorem within_append_unexpected {found : Findings} {n : Nat} (h : found.Within n)
    (character : Char) : (found ++ ⟨[], [(character, n)]⟩).Within (n + 1) := by
  constructor
  · intro token htoken span hspan
    rw [Findings.tokens_append, List.append_nil] at htoken
    obtain ⟨hlt, hle⟩ := h.1 token htoken span hspan
    exact ⟨hlt, Nat.le_succ_of_le hle⟩
  · intro m hm
    rcases List.mem_append.1 hm with hm | hm
    · exact Nat.lt_succ_of_lt (h.2 m hm)
    · rw [List.mem_singleton.1 hm]
      exact Nat.lt_succ_self n

/-- Nothing of what an unexpected character takes with it is in what is found. -/
theorem findingsOf_dropped {inside : Bool} {body back : List Char}
    (hrole : Role.of character = .unexpected) (hkept : isLineControl character = false)
    (hsource : before.flatMap Item.source = strip front) (hbody : InRegion inside (strip body))
    (hback : EndsRegion inside (strip back))
    (hitems : items false (strip front ++ character :: (strip body ++ strip back)) =
      before ++ items inside (character :: (strip body ++ strip back))) :
    findingsOf 0 (items false (strip (front ++ [character] ++ body ++ back))) =
      findingsOf 0 before ++ ⟨[], [(character, (strip front).length)]⟩ ++
        (findingsOf 0 (items inside (strip back))).raise
          (strip (front ++ [character] ++ body)).length := by
  have hone : strip [character] = [character] := strip_cons_of_kept hkept []
  have htext : strip (front ++ [character] ++ body ++ back) =
      strip front ++ character :: (strip body ++ strip back) := by
    rw [strip_append, strip_append, strip_append, hone, List.append_assoc, List.append_assoc,
      List.singleton_append]
  have hlength : ((before ++ [Item.dropped character (strip body)]).flatMap Item.source).length =
      (strip (front ++ [character] ++ body)).length := by
    rw [List.flatMap_append, hsource, strip_append, strip_append, hone, List.append_assoc,
      List.flatMap_singleton]
    rfl
  rw [htext, hitems, items_dropped hrole hbody hback, ← List.singleton_append, ← List.append_assoc,
    findingsOf_split, hlength, findingsOf_append_dropped, hsource, Nat.zero_add]

theorem numberTail_of_unexpected {inside : Bool} {body tail : List Char}
    (hrole : Role.of character = .unexpected) (hend : EndsRegion inside tail)
    (hpoint : character = '.' → body.head?.any Char.isDigit = false) :
    numberTail (character :: (body ++ tail)) = [] := by
  refine numberTail_eq_nil (by rw [hrole]; exact nofun) ?_
  intro hdot
  cases body with
  | cons d body => exact hpoint hdot
  | nil =>
    rcases hend with rfl | ⟨_, hclose⟩
    · rfl
    · rw [List.nil_append, hclose]
      decide

end Scan

open Scan Text

/-- Every warning is about an unexpected character that the scan reads.  Behind such a character, up
to the end of the region that it stands in, the expression may have any other text that does not end
the region sooner: all that is found stays the same, and what stands behind the region is moved by the
difference in length, as long as words hold all positions of both expressions.  Only behind a number may
the new text not begin with a digit if the character is a point, for then the two would be part of the
number. -/
theorem tokenize_replace_dropped (expression : String) (offset : Nat)
    (hfits : offset + expression.length < positionLimit) :
    let s := Source.ofExpression expression offset
    (∀ d ∈ (tokenize expression offset).diagnostics, ∃ c stop, Reads s c stop d.character ∧
      Role.of d.character = .unexpected ∧ d.position = s.report c.position) ∧
    ∀ c stop character, Reads s c stop character → Role.of character = .unexpected →
      ∀ text : List Char, ')' ∉ text →
        (character = '.' → c.BehindNumber s → (strip text).head?.any Char.isDigit = false) →
        let e : Edit := ⟨s.place c.position + 1, s.regionEnd stop, text⟩
        offset + (e.apply expression).length < positionLimit →
        (e.raise offset).Moves (e.apply expression) (tokenize expression offset)
          (tokenize (e.apply expression) offset) := by
  intro s
  constructor
  · intro d hd
    exact (reachable_run s).reads_of_mem_diagnostics d (Array.mem_toList_iff.1 hd)
  · intro c stop character hreads hrole text hnot hpoint e hmoved
    obtain ⟨before, front, rest, hcut⟩ := hreads.cutAt
    obtain ⟨stretch, back, rfl, hstretch, hback, hend⟩ := hcut.exists_regionEnd hreads.region
    obtain ⟨_, _, _, hparen, _, _, _, _, hname⟩ := Role.of_eq_unexpected_iff.1 hrole
    have htext : InRegion (carry false before) (strip text) := fun _ hmem =>
      hnot (List.mem_filter.1 hmem).1
    have hitems := hcut.items_eq
    rw [strip_append] at hitems
    have hreplaced : items false (strip front ++ character :: (strip text ++ strip back)) =
        before ++ items (carry false before) (character :: (strip text ++ strip back)) := by
      refine hcut.items_replace hname hparen fun number hlast => ?_
      exact numberTail_of_unexpected hrole hback fun hdot =>
        hpoint hdot (hcut.behind.behindNumber hlast)
    have hexpression : expression.toList = front ++ [character] ++ stretch ++ back := by
      rw [hcut.text_eq, List.append_assoc, List.append_assoc, List.singleton_append]
    have hone : strip (front ++ [character]) = strip front ++ [character] := by
      rw [strip_append, strip_cons_of_kept hcut.kept, strip_nil]
    have hfront := within_findingsOf_front hcut.items_eq
    rw [hcut.source_eq] at hfront
    have hwithin := within_append_unexpected hfront character
    rw [← List.length_singleton (a := character), ← List.length_append, ← hone] at hwithin
    have hedit : e = ⟨(front ++ [character]).length, (front ++ [character]).length + stretch.length,
        text⟩ := by
      show Edit.mk _ _ _ = _
      rw [hend, ← hcut.length_eq, List.length_append, List.length_singleton]
    rw [hedit] at hmoved ⊢
    exact moves_of_findings hexpression hwithin
      (within_findingsOf (carry false before) (strip back))
      (findingsOf_dropped hrole hcut.kept hcut.source_eq hstretch hback hitems)
      (findingsOf_dropped hrole hcut.kept hcut.source_eq htext hback hreplaced) hfits hmoved

/-- The arguments of a function, cut short by a number sign. -/
theorem tokenize_replace_dropped_argument :
    3 + "f(1 # [a) + 2".length < positionLimit ∧
      ∃ c stop, Reads (Source.ofExpression "f(1 # [a) + 2" 3) c stop '#' ∧
      Role.of '#' = .unexpected ∧ ')' ∉ ['?', '\'', '\n', '('] ∧
      let s := Source.ofExpression "f(1 # [a) + 2" 3
      let e : Edit := ⟨s.place c.position + 1, s.regionEnd stop, ['?', '\'', '\n', '(']⟩
      3 + (e.apply "f(1 # [a) + 2").length < positionLimit ∧
      (e.raise 3).Moves (e.apply "f(1 # [a) + 2") (tokenize "f(1 # [a) + 2" 3)
        (tokenize (e.apply "f(1 # [a) + 2") 3) := by
  have hfits : 3 + "f(1 # [a) + 2".length < positionLimit := by decide
  have hdiagnostics : (tokenize "f(1 # [a) + 2" 3).diagnostics = [⟨'#', "f(1 # [a) + 2", 7⟩] := by
    decide +kernel
  obtain ⟨hwarnings, hreplace⟩ := tokenize_replace_dropped "f(1 # [a) + 2" 3 hfits
  obtain ⟨c, stop, hreads, hrole, _⟩ := hwarnings ⟨'#', "f(1 # [a) + 2", 7⟩
    (by rw [hdiagnostics]; exact List.mem_singleton_self _)
  have hnot : ')' ∉ ['?', '\'', '\n', '('] := by decide
  have hpoint : '#' = '.' → c.BehindNumber (Source.ofExpression "f(1 # [a) + 2" 3) →
      (strip ['?', '\'', '\n', '(']).head?.any Char.isDigit = false :=
    fun hdot => absurd hdot (by decide)
  -- Whatever the stretch is, the edit adds no more than its text.
  have hmoved : 3 + (Edit.apply ⟨(Source.ofExpression "f(1 # [a) + 2" 3).place c.position + 1,
      (Source.ofExpression "f(1 # [a) + 2" 3).regionEnd stop, ['?', '\'', '\n', '(']⟩
      "f(1 # [a) + 2").length < positionLimit := by
    have hlength : "f(1 # [a) + 2".length = 13 := by decide
    have hlimit : 33 < positionLimit := by decide
    rw [Edit.length_apply]
    show 3 + (min _ _ + 4 + (_ - _)) < positionLimit
    omega
  exact ⟨hfits, c, stop, hreads, hrole, hnot, hmoved,
    hreplace c stop '#' hreads hrole _ hnot hpoint hmoved⟩

/-- Behind a number a point is looked at together with the first character of the text behind it: a
digit there makes it a part of the number. -/
theorem not_moves_point_digit :
    ∃ c stop, Reads (Source.ofExpression "1.x" 0) c stop '.' ∧ Role.of '.' = .unexpected ∧
      (Source.ofExpression "1.x" 0).place c.position = 1 ∧
      (Source.ofExpression "1.x" 0).regionEnd stop = 3 ∧ ')' ∉ ['5'] ∧
      ¬ (Edit.raise 0 ⟨1 + 1, 3, ['5']⟩).Moves (Edit.apply ⟨1 + 1, 3, ['5']⟩ "1.x")
        (tokenize "1.x" 0) (tokenize (Edit.apply ⟨1 + 1, 3, ['5']⟩ "1.x") 0) := by
  have hreads : Reads (Source.ofExpression "1.x" 0)
      (advance (Source.ofExpression "1.x" 0) (Source.ofExpression "1.x" 0).length []
        (Config.initial (Source.ofExpression "1.x" 0))) 3 '.' :=
    reads_second (by decide +kernel) (by decide +kernel)
  have hplace : (Source.ofExpression "1.x" 0).place (advance (Source.ofExpression "1.x" 0)
      (Source.ofExpression "1.x" 0).length []
      (Config.initial (Source.ofExpression "1.x" 0))).position = 1 := by decide +kernel
  have hend : (Source.ofExpression "1.x" 0).regionEnd 3 = 3 := by decide +kernel
  refine ⟨_, 3, hreads, by decide, hplace, hend, by decide, ?_⟩
  intro hmoves
  have hvalues := congrArg (List.map Token.value) hmoves.tokens
  have hkept : (tokenize "1.x" 0).tokens.map Token.value = [some (.text "1"), none] := by decide +kernel
  have hedited : (tokenize (Edit.apply ⟨1 + 1, 3, ['5']⟩ "1.x") 0).tokens.map Token.value =
      [some (.text "1.5"), none] := by decide +kernel
  have hsame : Token.value ∘ Token.relocate (Edit.raise 0 ⟨1 + 1, 3, ['5']⟩).span = Token.value :=
    funext fun t => Token.value_relocate _ t
  rw [List.map_map, hsame, hkept, hedited] at hvalues
  exact absurd hvalues (by decide)

end ColumnFormula
