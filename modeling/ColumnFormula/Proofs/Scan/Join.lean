import ColumnFormula.Proofs.Scan.Append
import ColumnFormula.Proofs.Scan.Place

/-!
# Expressions joined at a closing parenthesis

The scan of two texts around a closing parenthesis is made of the scans of the two.  Their items
stand side by side (`items_append`), so what is to be said here is where things stand, for the two
texts are scanned from positions of their own (`Findings.place_append_left`,
`Findings.place_append_right`), and when a name and an unexpected character are met, for what the
parenthesis does depends on that.
-/

namespace ColumnFormula

/-- The span of the same stretch in a text with `n` more characters in front. -/
def Span.raise (n : Nat) (span : Span) : Span :=
  ⟨n + span.start, n + span.stop⟩

namespace Scan

open Text Token

/-! ## What is found, and where -/

namespace Findings

/-- The findings in a text with `n` more characters in front. -/
def raise (n : Nat) (found : Findings) : Findings :=
  ⟨found.tokens.map (relocate (Span.raise n)), found.unexpected.map fun m => (m.1, n + m.2)⟩

/-- The findings in a text without its line controls, at the places of the text itself, which starts
at `offset`. -/
def place (text : List Char) (offset : Nat) (found : Findings) : Findings :=
  ⟨found.tokens.map (relocate (sourceSpan text offset)),
    found.unexpected.map fun m => (m.1, offset + sourceIndex text m.2)⟩

/-- The findings at the positions that words hold. -/
def wrap (found : Findings) : Findings :=
  ⟨found.tokens.map (relocate Span.wrap),
    found.unexpected.map fun m => (m.1, ColumnFormula.wrap m.2)⟩

/-- All that is found stands in a text of the given length. -/
def Within (length : Nat) (found : Findings) : Prop :=
  (∀ token ∈ found.tokens, ∀ span, token.span? = some span →
    span.start < span.stop ∧ span.stop ≤ length) ∧
  ∀ m ∈ found.unexpected, m.2 < length

theorem raise_append (n : Nat) (a b : Findings) : (a ++ b).raise n = a.raise n ++ b.raise n := by
  simp only [raise, tokens_append, unexpected_append, List.map_append]
  rfl

theorem place_append (text : List Char) (offset : Nat) (a b : Findings) :
    (a ++ b).place text offset = a.place text offset ++ b.place text offset := by
  simp only [place, tokens_append, unexpected_append, List.map_append]
  rfl

theorem wrap_append (a b : Findings) : (a ++ b).wrap = a.wrap ++ b.wrap := by
  simp only [wrap, tokens_append, unexpected_append, List.map_append]
  rfl

/-- What is found in the text in front stands where it stands in that text. -/
theorem place_append_left {found : Findings} {front : List Char}
    (h : found.Within (strip front).length) (rest : List Char) (offset : Nat) :
    found.place (front ++ rest) offset = found.place front offset := by
  simp only [place, mk.injEq]
  constructor
  · apply List.map_congr_left
    intro token htoken
    apply relocate_congr
    intro span hspan
    obtain ⟨hlt, hle⟩ := h.1 token htoken span hspan
    rw [sourceSpan, sourceSpan, sourceIndex_append_left rest (by omega),
      sourceIndex_append_left rest (by omega)]
  · apply List.map_congr_left
    intro m hm
    rw [sourceIndex_append_left rest (h.2 m hm)]

/-- What is found in the text behind stands where it stands in that text, further on by the text in
front. -/
theorem place_append_right {found : Findings} {rest : List Char}
    (h : found.Within (strip rest).length) (front : List Char) (offset : Nat) :
    (found.raise (strip front).length).place (front ++ rest) offset =
      found.place rest (offset + front.length) := by
  simp only [place, raise, List.map_map, mk.injEq]
  constructor
  · apply List.map_congr_left
    intro token htoken
    show (token.relocate _).relocate _ = _
    rw [relocate_relocate]
    apply relocate_congr
    intro span hspan
    obtain ⟨hlt, hle⟩ := h.1 token htoken span hspan
    have hlast : (strip front).length + span.stop - 1 = (strip front).length + (span.stop - 1) := by
      omega
    show sourceSpan _ _ ⟨_, _⟩ = _
    rw [sourceSpan, sourceSpan, hlast, sourceIndex_append_right front (by omega),
      sourceIndex_append_right front (by omega)]
    simp only [Nat.add_assoc]
  · apply List.map_congr_left
    intro m hm
    show (m.1, offset + sourceIndex _ _) = _
    rw [sourceIndex_append_right front (h.2 m hm), Nat.add_assoc]

/-- In a text without line controls all stands where it is found, further on by the offset. -/
theorem place_strip {found : Findings} {text : List Char} (h : found.Within (strip text).length)
    (offset : Nat) : found.place (strip text) offset = found.raise offset := by
  simp only [place, raise, mk.injEq]
  constructor
  · apply List.map_congr_left
    intro token htoken
    apply relocate_congr
    intro span hspan
    obtain ⟨hlt, hle⟩ := h.1 token htoken span hspan
    rw [sourceSpan, sourceIndex_strip (by omega), sourceIndex_strip (by omega), Span.raise,
      Nat.add_assoc, Nat.sub_add_cancel (by omega)]
  · apply List.map_congr_left
    intro m hm
    rw [sourceIndex_strip (h.2 m hm)]

end Findings

theorem Item.findings_add (n base : Nat) (it : Item) :
    it.findings (n + base) = (it.findings base).raise n := by
  cases it with
  | bracket inner closed =>
    by_cases hinner : inner = [] <;> cases closed <;>
      simp [findings, tokens, unexpected, Findings.raise, relocate, Span.raise, hinner, Nat.add_assoc]
    all_goals rfl
  | name text call =>
    cases call <;>
      simp [findings, tokens, unexpected, Findings.raise, relocate, Span.raise, Nat.add_assoc]
    all_goals rfl
  | _ => rfl

theorem findingsOf_add (n base : Nat) (its : List Item) :
    findingsOf (n + base) its = (findingsOf base its).raise n := by
  induction its generalizing base with
  | nil => rfl
  | cons it rest ih =>
    rw [findingsOf, findingsOf, Findings.raise_append, Item.findings_add, Nat.add_assoc, ih]

theorem within_findingsOf (inside : Bool) (text : List Char) :
    (findingsOf 0 (items inside text)).Within text.length := by
  constructor
  · intro token htoken span hspan
    exact span_of_mem_tokens htoken hspan
  · rintro ⟨c, position⟩ hm
    have hlt := lt_of_mem_unexpected hm
    rw [flatMap_source_items, Nat.zero_add] at hlt
    exact hlt

/-- The scan of an expression in which this is found. -/
def Findings.toScan (expression : String) (found : Findings) : Scan :=
  ⟨found.tokens ++ [endOfInput], found.unexpected.map fun m => ⟨m.1, expression, m.2⟩⟩

theorem tokenize_eq_toScan (expression : String) (offset : Nat) :
    tokenize expression offset =
      ((findingsOf 0 (items false (strip expression.toList))).place
        expression.toList offset).wrap.toScan expression := by
  have hmove : relocate Span.wrap ∘ relocate (sourceSpan expression.toList offset) =
      relocate (reportedSpan expression.toList offset) :=
    funext fun token => relocate_relocate _ _ token
  rw [tokenize_eq_items, Findings.toScan, Findings.wrap, Findings.place, List.map_map, List.map_map,
    List.map_map, hmove]
  rfl

/-- Where words hold all positions of the expression, its findings are told as they stand. -/
theorem tokenize_eq_toScan_of_lt {expression : String} {offset : Nat}
    (hfits : offset + expression.length < positionLimit) :
    tokenize expression offset =
      ((findingsOf 0 (items false (strip expression.toList))).place
        expression.toList offset).toScan expression := by
  rw [tokenize_eq_items_of_lt hfits, Findings.toScan, Findings.place, List.map_map]
  rfl

theorem place_findingsOf_strip (text : List Char) (offset : Nat) :
    (findingsOf 0 (items false (strip text))).place (strip text) offset =
      findingsOf offset (items false (strip text)) := by
  rw [Findings.place_strip (within_findingsOf false _), ← findingsOf_add, Nat.add_zero]

/-- What is scanned of an expression without line controls is found where it stands. -/
theorem tokenize_ofList_strip (text : List Char) (offset : Nat) :
    tokenize (String.ofList (strip text)) offset =
      (findingsOf offset (items false (strip text))).wrap.toScan (String.ofList (strip text)) := by
  rw [tokenize_eq_toScan, String.toList_ofList, strip_strip, place_findingsOf_strip]

/-- The first item of a text is the source of a function only if it is a name. -/
theorem any_function_tokens_first (c : Char) (rest : List Char) (base : Nat) :
    ((Item.first c rest).tokens base).any (·.kind == .function) = (Item.first c rest).isName := by
  cases hrole : Role.of c with
  | operator kind =>
    have hkind : ∀ kind ∈ Operator.charKinds, ((kind == .function) || false) = false := by decide
    rw [Item.first_of_role hrole]
    exact hkind _ (Operator.kind_mem_charKinds (Role.of_eq_operator_iff.1 hrole))
  | bracket =>
    rw [Item.first_of_role hrole, Item.ofRole, Item.tokens]
    split <;> split <;> rfl
  | quote =>
    rw [Item.first_of_role hrole, Item.ofRole]
    split <;> rfl
  | _ =>
    rw [Item.first_of_role hrole]
    rfl

theorem any_function_findingsOf (inside : Bool) (text : List Char) (base : Nat) :
    (findingsOf base (items inside text)).tokens.any (·.kind == .function) =
      (items inside text).any Item.isName := by
  fun_induction items inside text generalizing base with
  | case1 => rfl
  | case2 inside c rest h ih =>
    rw [findingsOf, Findings.tokens_append, List.any_append, ih]
    rfl
  | case3 inside c rest h it ih =>
    rw [findingsOf, Findings.tokens_append, List.any_append, ih, List.any_cons]
    congr 1
    exact any_function_tokens_first c (reach inside rest) base

theorem unexpected_findingsOf_eq_nil_iff {base : Nat} {its : List Item} :
    (findingsOf base its).unexpected = [] ↔ its.any Item.isDropped = false := by
  rw [← List.length_eq_zero_iff, length_unexpected_findingsOf, List.countP_eq_zero]
  simp

theorem any_function_tokenize (expression : String) (offset : Nat) :
    (tokenize expression offset).tokens.any (·.kind == .function) =
      (items false (strip expression.toList)).any Item.isName := by
  rw [tokens_tokenize, List.any_append, List.any_map, ← any_function_findingsOf false _ 0]
  simp only [Function.comp_def, kind_relocate]
  exact Bool.or_false _

theorem diagnostics_eq_nil_iff (expression : String) (offset : Nat) :
    (tokenize expression offset).diagnostics = [] ↔
      (items false (strip expression.toList)).any Item.isDropped = false := by
  rw [diagnostics_tokenize, List.map_eq_nil_iff, unexpected_findingsOf_eq_nil_iff]

/-! ## The scan of the joined text -/

/-- Two scans as one: without the first end of the input, and with a token for what stands between
the two texts. -/
def join (expression : String) (kind : Kind) (before after : Scan) : Scan :=
  ⟨before.tokens.dropLast ++ bare kind :: after.tokens,
    (before.diagnostics ++ after.diagnostics).map fun d => { d with expression := expression }⟩

/-- Whether a quote or a bracket that the scan of the expression meets is not closed. -/
def leavesUnclosed (expression : String) : Bool :=
  (items false (strip expression.toList)).any Item.isUnclosed

theorem toScan_append (front rest expression : String) (kind : Kind) (a b : Findings) :
    (a ++ (⟨[bare kind], []⟩ ++ b)).toScan expression =
      join expression kind (a.toScan front) (b.toScan rest) := by
  simp [Findings.toScan, join, Function.comp_def]

theorem toList_closing (front rest : String) :
    (front ++ ")" ++ rest).toList = front.toList ++ ')' :: rest.toList := by
  simp

theorem strip_closing (front rest : String) :
    strip (front ++ ")" ++ rest).toList = strip front.toList ++ ')' :: strip rest.toList := by
  rw [toList_closing, strip_append, strip_cons_of_kept (by decide)]

/-- If the items of the joined text are those of the two texts around the parenthesis, then so is
the scan. -/
theorem tokenize_eq_join {front rest : String} (ends : Bool)
    (hitems : items false (strip front.toList ++ ')' :: strip rest.toList) =
      items false (strip front.toList) ++ .closing ends :: items false (strip rest.toList))
    (offset : Nat) :
    tokenize (front ++ ")" ++ rest) offset =
      join (front ++ ")" ++ rest) (if ends then .closeParenthesis else .openParenthesis)
        (tokenize front offset) (tokenize rest (offset + front.length + 1)) := by
  -- Whatever is in front of the text behind, the parenthesis included, is one text for its places.
  have htext : (front ++ ")" ++ rest).toList = (front.toList ++ [')']) ++ rest.toList := by
    rw [toList_closing, List.append_assoc, List.singleton_append]
  have hfront : strip (front.toList ++ [')']) = strip front.toList ++ [')'] := by
    rw [strip_append, strip_cons_of_kept (by decide), strip_nil]
  have hlength : 0 + ((items false (strip front.toList)).flatMap Item.source).length +
      (Item.closing ends).source.length = (strip (front.toList ++ [')'])).length + 0 := by
    rw [flatMap_source_items, hfront, List.length_append, Nat.zero_add]
    rfl
  have hfound : findingsOf 0 (items false (strip (front ++ ")" ++ rest).toList)) =
      findingsOf 0 (items false (strip front.toList)) ++
        (⟨[bare (if ends then .closeParenthesis else .openParenthesis)], []⟩ ++
          (findingsOf 0 (items false (strip rest.toList))).raise
            (strip (front.toList ++ [')'])).length) := by
    rw [strip_closing, hitems, findingsOf_append, findingsOf, hlength, findingsOf_add]
    rfl
  have hbefore : (findingsOf 0 (items false (strip front.toList))).place
      (front ++ ")" ++ rest).toList offset =
      (findingsOf 0 (items false (strip front.toList))).place front.toList offset := by
    rw [toList_closing]
    exact Findings.place_append_left (within_findingsOf false _) _ _
  have hafter : ((findingsOf 0 (items false (strip rest.toList))).raise
      (strip (front.toList ++ [')'])).length).place (front ++ ")" ++ rest).toList offset =
      (findingsOf 0 (items false (strip rest.toList))).place rest.toList
        (offset + front.length + 1) := by
    rw [htext, Findings.place_append_right (within_findingsOf false _), List.length_append,
      String.length_toList]
    rfl
  rw [tokenize_eq_toScan, hfound, Findings.place_append, Findings.place_append, hbefore, hafter,
    Findings.wrap_append, Findings.wrap_append, tokenize_eq_toScan front, tokenize_eq_toScan rest]
  exact toScan_append front rest _ _ _ _

/-- Nothing is found in what an unexpected character takes with it. -/
theorem findingsOf_append_dropped (base : Nat) (front : List Item) (c : Char) (body : List Char) :
    findingsOf base (front ++ [.dropped c body]) =
      findingsOf base front ++ ⟨[], [(c, base + (front.flatMap Item.source).length)]⟩ := by
  rw [findingsOf_append]
  rfl

theorem tokenize_append_of_isDropped {front : String} (rest : String) (offset : Nat)
    (hname : (items false (strip front.toList)).any Item.isName = false)
    (hdropped : (items false (strip front.toList)).any Item.isDropped = true) :
    ∃ d, (tokenize front offset).diagnostics = [d] ∧
      tokenize (front ++ ")" ++ rest) offset =
        ⟨(tokenize front offset).tokens, [{ d with expression := front ++ ")" ++ rest }]⟩ := by
  have hend : EndsRegion true (')' :: strip rest.toList) := Or.inr ⟨rfl, rfl⟩
  obtain ⟨kept, c, body, hitems, hkept, happend⟩ :=
    items_append_of_isDropped hend hname hdropped
  have hwithin := within_findingsOf false (strip front.toList)
  have hquiet : (findingsOf 0 kept).unexpected = [] := unexpected_findingsOf_eq_nil_iff.2 hkept
  rw [hitems, findingsOf_append_dropped] at hwithin
  rw [tokenize_eq_toScan, tokenize_eq_toScan, strip_closing, happend, hitems,
    findingsOf_append_dropped, findingsOf_append_dropped, toList_closing,
    Findings.place_append_left hwithin, Findings.place, Findings.unexpected_append, hquiet]
  exact ⟨_, rfl, rfl⟩

end Scan

open Scan Text Token

/-- An expression without a closing parenthesis, a closing parenthesis, and any text behind it.  If
the first has a function in it, then the parenthesis ends that function's arguments and the text
behind is scanned for itself, whatever is cut short or dropped in front.  Without a function the
same holds of an expression in which nothing is unexpected or unclosed, but the parenthesis comes
out as an opening one.  And without a function an unexpected character takes all the text behind
with it. -/
theorem tokenize_append_closing (front rest : String) (offset : Nat) (h : ')' ∉ front.toList) :
    let expression := front ++ ")" ++ rest
    let whole := tokenize expression offset
    let before := tokenize front offset
    let after := tokenize rest (offset + front.length + 1)
    let named := before.tokens.any (·.kind == .function)
    (named = true → whole = join expression .closeParenthesis before after) ∧
    (named = false → before.diagnostics = [] → leavesUnclosed front = false →
      whole = join expression .openParenthesis before after) ∧
    (named = false → before.diagnostics ≠ [] →
      ∃ d, before.diagnostics = [d] ∧
        whole = ⟨before.tokens, [{ d with expression := expression }]⟩) := by
  intro expression whole before after named
  have hnot : ')' ∉ strip front.toList := fun hmem => h (List.mem_filter.1 hmem).1
  have hend : EndsRegion true (')' :: strip rest.toList) := Or.inr ⟨rfl, rfl⟩
  have hnamed : named = (items false (strip front.toList)).any Item.isName :=
    any_function_tokenize front offset
  rw [hnamed]
  refine ⟨?_, ?_, ?_⟩
  · intro hname
    apply tokenize_eq_join true
    rw [items_append hnot hend (Or.inl hname), hname, items_cons_closing]
  · intro hname hquiet hclosed
    apply tokenize_eq_join false
    have hkept := (diagnostics_eq_nil_iff front offset).1 hquiet
    have hown : ∀ it ∈ items false (strip front.toList), it.isCutOff = false := by
      intro it hit
      have hown := List.any_eq_false.1 hclosed it hit
      have hmet := List.any_eq_false.1 hkept it hit
      rw [Item.isCutOff, Bool.eq_false_iff.2 hown, Bool.eq_false_iff.2 hmet]
      rfl
    rw [items_append hnot hend (Or.inr hown), hname, items_cons_closing]
  · intro hname hwarns
    have hdropped : (items false (strip front.toList)).any Item.isDropped = true := by
      rw [← Bool.not_eq_false, ← diagnostics_eq_nil_iff front offset]
      exact hwarns
    exact tokenize_append_of_isDropped rest offset hname hdropped

/-- A call that is cut short inside a quote, an expression with nothing missing, and one with an
unexpected character, each in front of the same text. -/
theorem tokenize_append_closing_cut :
    (')' ∉ "sum([a] # 'b".toList ∧
      (tokenize "sum([a] # 'b" 3).tokens.any (·.kind == .function) = true ∧
      tokenize ("sum([a] # 'b" ++ ")" ++ " + f(1) ? 2") 3 =
        join ("sum([a] # 'b" ++ ")" ++ " + f(1) ? 2") .closeParenthesis (tokenize "sum([a] # 'b" 3)
          (tokenize " + f(1) ? 2" (3 + "sum([a] # 'b".length + 1))) ∧
    (')' ∉ "1 + [a]".toList ∧ (tokenize "1 + [a]" 3).tokens.any (·.kind == .function) = false ∧
      (tokenize "1 + [a]" 3).diagnostics = [] ∧ leavesUnclosed "1 + [a]" = false ∧
      tokenize ("1 + [a]" ++ ")" ++ " + f(1) ? 2") 3 =
        join ("1 + [a]" ++ ")" ++ " + f(1) ? 2") .openParenthesis (tokenize "1 + [a]" 3)
          (tokenize " + f(1) ? 2" (3 + "1 + [a]".length + 1))) ∧
    (')' ∉ "1 # [a".toList ∧ (tokenize "1 # [a" 3).tokens.any (·.kind == .function) = false ∧
      (tokenize "1 # [a" 3).diagnostics ≠ [] ∧
      ∃ d, (tokenize "1 # [a" 3).diagnostics = [d] ∧
        tokenize ("1 # [a" ++ ")" ++ " + f(1) ? 2") 3 =
          ⟨(tokenize "1 # [a" 3).tokens,
            [{ d with expression := "1 # [a" ++ ")" ++ " + f(1) ? 2" }]⟩) := by
  have hcall : ')' ∉ "sum([a] # 'b".toList := by decide
  have hnamed : (tokenize "sum([a] # 'b" 3).tokens.any (·.kind == .function) = true := by decide +kernel
  have hplain : ')' ∉ "1 + [a]".toList := by decide
  have hunnamed : (tokenize "1 + [a]" 3).tokens.any (·.kind == .function) = false := by decide +kernel
  have hquiet : (tokenize "1 + [a]" 3).diagnostics = [] := by decide +kernel
  have hclosed : leavesUnclosed "1 + [a]" = false := by decide +kernel
  have hmarked : ')' ∉ "1 # [a".toList := by decide
  have hunnamed' : (tokenize "1 # [a" 3).tokens.any (·.kind == .function) = false := by decide +kernel
  have hwarns : (tokenize "1 # [a" 3).diagnostics ≠ [] := by
    have hone : (tokenize "1 # [a" 3).diagnostics.length = 1 := by decide +kernel
    intro hnil
    rw [hnil] at hone
    cases hone
  refine ⟨⟨hcall, hnamed, ?_⟩, ⟨hplain, hunnamed, hquiet, hclosed, ?_⟩,
    ⟨hmarked, hunnamed', hwarns, ?_⟩⟩
  · exact (tokenize_append_closing "sum([a] # 'b" " + f(1) ? 2" 3 hcall).1 hnamed
  · exact (tokenize_append_closing "1 + [a]" " + f(1) ? 2" 3 hplain).2.1 hunnamed hquiet hclosed
  · exact (tokenize_append_closing "1 # [a" " + f(1) ? 2" 3 hmarked).2.2 hunnamed' hwarns

end ColumnFormula
