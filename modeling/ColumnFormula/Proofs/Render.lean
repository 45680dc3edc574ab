import ColumnFormula.Proofs.Scan.Stream
import ColumnFormula.Proofs.Text.Numeral
import ColumnFormula.Render

/-!
# What lines tell

The lines of a stream are written without any quoting: a string may have blanks in it, or what looks
like a place, and a column is one text whether it names a table or not.  The tokens of a scan can be
read off their lines all the same.  No value has a line feed in it, the kind is what stands in front of
the first blank and says what comes behind it, and a place is the last thing in its line.
-/

namespace ColumnFormula

open Scan Text

/-! ## Places -/

namespace Span

theorem toList_display (span : Span) :
    span.display.toList = ' ' :: '@' :: (digits span.start ++ '.' :: '.' :: digits span.stop) := by
  simp [display, Nat.toList_repr, digits]

/-- There is no line feed in a place. -/
theorem not_mem_display (span : Span) : '\n' ∉ span.display.toList := by
  rw [toList_display]
  simp [not_mem_digits]

/-- The place at the end of a line is told from what stands in front of it, whatever that is. -/
theorem append_display_inj {a b : List Char} {span span' : Span}
    (h : a ++ span.display.toList = b ++ span'.display.toList) : a = b ∧ span = span' := by
  have hat : ∀ span : Span, '@' ∉ digits span.start ++ '.' :: '.' :: digits span.stop := by
    intro span
    simp [not_mem_digits]
  have hpoint : ∀ n, '.' ∉ digits n := fun n => not_mem_digits (by decide)
  have hsplit : (a ++ [' ']) ++ '@' :: (digits span.start ++ '.' :: '.' :: digits span.stop) =
      (b ++ [' ']) ++ '@' :: (digits span'.start ++ '.' :: '.' :: digits span'.stop) := by
    rw [toList_display, toList_display] at h
    rw [List.append_assoc, List.append_assoc]
    exact h
  -- The last at sign is the one of the place, and the first point behind it that between its ends.
  obtain ⟨hfront, hplace⟩ := append_cons_inj_right (hat span) (hat span') hsplit
  obtain ⟨hstart, hstop⟩ := append_cons_inj (hpoint _) (hpoint _) hplace
  have hstart' := congrArg valueOf hstart
  have hstop' := congrArg valueOf (List.cons.inj hstop).2
  rw [valueOf_digits, valueOf_digits] at hstart' hstop'
  refine ⟨List.append_cancel_right hfront, ?_⟩
  cases span
  cases span'
  rw [mk.injEq]
  exact ⟨hstart', hstop'⟩

end Span

/-! ## The lines of a list -/

section Lines

variable {α : Type} {body : α → List Char} {as bs : List α}

theorem count_lines (h : ∀ a ∈ as, '\n' ∉ body a) :
    (as.flatMap fun a => body a ++ ['\n']).count '\n' = as.length := by
  induction as with
  | nil => rfl
  | cons a as ih =>
    obtain ⟨ha, has⟩ := List.forall_mem_cons.1 h
    rw [List.flatMap_cons, List.count_append, List.count_append, List.count_eq_zero_of_not_mem ha,
      ih has, List.length_cons, Nat.add_comm]
    rfl

/-- If a line tells what it is the line of, then the lines of a list tell the list. -/
theorem lines_inj (has : ∀ a ∈ as, '\n' ∉ body a) (hbs : ∀ b ∈ bs, '\n' ∉ body b)
    (hinj : ∀ a ∈ as, ∀ b ∈ bs, body a = body b → a = b)
    (h : (as.flatMap fun a => body a ++ ['\n']) = bs.flatMap fun b => body b ++ ['\n']) :
    as = bs := by
  induction as generalizing bs with
  | nil =>
    cases bs with
    | nil => rfl
    | cons b bs => exact absurd h (by simp)
  | cons a as ih =>
    cases bs with
    | nil => exact absurd h (by simp)
    | cons b bs =>
      obtain ⟨ha, has⟩ := List.forall_mem_cons.1 has
      obtain ⟨hb, hbs⟩ := List.forall_mem_cons.1 hbs
      rw [List.flatMap_cons, List.flatMap_cons, List.append_assoc, List.append_assoc] at h
      obtain ⟨hbody, hrest⟩ := append_cons_inj ha hb h
      have hrest' := ih has hbs (fun a ha b hb => hinj a (List.mem_cons_of_mem _ ha) b
        (List.mem_cons_of_mem _ hb)) hrest
      rw [hinj a List.mem_cons_self b List.mem_cons_self hbody, hrest']

end Lines

/-! ## The line of a token -/

namespace Token

/-- The characters of a value in a line. -/
def valueText : Option Value → List Char
  | some value => ' ' :: value.display.toList
  | none => []

/-- The characters of a place in a line. -/
def placeText : Option Span → List Char
  | some span => span.display.toList
  | none => []

/-- The line of a token without the line feed at its end. -/
def body (t : Token) : List Char :=
  t.kind.name.toList ++ (valueText t.value ++ placeText t.span?)

theorem toList_line (t : Token) : t.line.toList = t.body ++ ['\n'] := by
  rw [line, body]
  cases t.value <;> cases t.span? <;> simp [valueText, placeText]

theorem toList_lines (tokens : List Token) :
    (lines tokens).toList = tokens.flatMap fun t => t.body ++ ['\n'] := by
  rw [lines, String.toList_join, List.flatMap_map]
  simp only [toList_line]

theorem Kind.not_mem_name (kind : Kind) : ' ' ∉ kind.name.toList ∧ '\n' ∉ kind.name.toList := by
  cases kind <;> decide

/-- The kind is what stands in front of the first blank. -/
theorem Kind.append_name_inj {kind kind' : Kind} {a b : List Char}
    (ha : ∀ c ∈ a.head?, c = ' ') (hb : ∀ c ∈ b.head?, c = ' ')
    (h : kind.name.toList ++ a = kind'.name.toList ++ b) : kind = kind' ∧ a = b := by
  have htake : ∀ (kind : Kind) (a : List Char), (∀ c ∈ a.head?, c = ' ') →
      (kind.name.toList ++ a).takeWhile (· != ' ') = kind.name.toList := by
    intro kind a ha
    have hnot := kind.not_mem_name.1
    cases a with
    | nil => rw [List.append_nil, takeWhile_bne_of_not_mem hnot]
    | cons c a =>
      obtain rfl := ha c rfl
      exact takeWhile_bne_append hnot a
  have hname := congrArg (List.takeWhile (· != ' ')) h
  rw [htake kind a ha, htake kind' b hb] at hname
  obtain rfl := name_injective (String.toList_inj.1 hname)
  exact ⟨rfl, List.append_cancel_left h⟩

theorem not_mem_valueText {text : String} (h : ∀ c ∈ text.toList, isLineControl c = false) :
    '\n' ∉ valueText (some (.text text)) := by
  intro hmem
  rcases List.mem_cons.1 hmem with hmem | hmem
  · exact absurd hmem (by decide)
  · exact absurd (h _ hmem) (by decide)

/-- A value that a kind allows has no line feed in it. -/
theorem Kind.Allows.not_mem_valueText {kind : Kind} {value : Option Value}
    (h : kind.Allows value) : '\n' ∉ valueText value := by
  cases kind with
  | endOfInput | openParenthesis | closeParenthesis | openSquareBracket | closeSquareBracket =>
    rw [show value = none from h]
    exact List.not_mem_nil
  | operatorNeq | operatorGte | operatorLte | functionArguments => exact h.elim
  | number =>
    obtain ⟨text, rfl, htext⟩ := h
    exact Token.not_mem_valueText htext.isLineControl
  | string =>
    obtain ⟨text, rfl, htext, _⟩ := h
    exact Token.not_mem_valueText htext
  | argumentSeparator =>
    rw [show value = some (.text ",") from h]
    decide
  | column =>
    obtain ⟨column, rfl, hcolumn⟩ := h
    exact Token.not_mem_valueText fun c hc => (hcolumn.characters c hc).2
  | function =>
    obtain ⟨name, rfl, htext⟩ := h
    exact Token.not_mem_valueText htext.isLineControl
  | _ =>
    obtain ⟨c, rfl, hentry⟩ := h
    refine Token.not_mem_valueText ?_
    rw [String.toList_singleton]
    exact List.forall_mem_singleton.2 (isLineControl_of_operator hentry)

/-- A kind that allows two values tells them apart by their texts. -/
theorem Kind.Allows.valueText_inj {kind : Kind} {value value' : Option Value}
    (h : kind.Allows value) (h' : kind.Allows value')
    (htext : valueText value = valueText value') : value = value' := by
  cases kind with
  | endOfInput | openParenthesis | closeParenthesis | openSquareBracket | closeSquareBracket
  | argumentSeparator => exact Eq.trans h h'.symm
  | operatorNeq | operatorGte | operatorLte | functionArguments => exact h.elim
  | column =>
    obtain ⟨column, rfl, hcolumn⟩ := h
    obtain ⟨column', rfl, hcolumn'⟩ := h'
    have hdisplay := String.toList_inj.1 (List.cons.inj htext).2
    rw [hcolumn.isNormal.display_inj hcolumn'.isNormal hdisplay]
  | _ =>
    obtain ⟨text, rfl, _⟩ := h
    obtain ⟨text', rfl, _⟩ := h'
    have hsame := String.toList_inj.1 (List.cons.inj htext).2
    exact congrArg (fun text => some (Value.text text)) hsame

/-- What the line of a token is written from: a value such as its kind wants, and a place if and only
if its kind has one. -/
structure IsListed (t : Token) : Prop where
  value : t.kind.Allows t.value
  place : if t.isMarked then ∃ start stop, t.start = some start ∧ t.stop = some stop
    else t.start = none ∧ t.stop = none

theorem IsListed.not_mem_body {t : Token} (h : t.IsListed) : '\n' ∉ t.body := by
  have hplace : '\n' ∉ placeText t.span? := by
    cases t.span? with
    | none => exact List.not_mem_nil
    | some span => exact span.not_mem_display
  rw [body, List.mem_append, List.mem_append, not_or, not_or]
  exact ⟨t.kind.not_mem_name.2, h.value.not_mem_valueText, hplace⟩

theorem head_valueText_placeText (t : Token) :
    ∀ c ∈ (valueText t.value ++ placeText t.span?).head?, c = ' ' := by
  intro c hc
  cases hvalue : t.value with
  | some value =>
    rw [hvalue] at hc
    exact (Option.some.inj hc).symm
  | none =>
    rw [hvalue] at hc
    cases hspan : t.span? with
    | some span =>
      rw [hspan, placeText, Span.toList_display] at hc
      exact (Option.some.inj hc).symm
    | none =>
      rw [hspan] at hc
      cases hc

/-- A line tells the token. -/
theorem IsListed.body_inj {t t' : Token} (h : t.IsListed) (h' : t'.IsListed)
    (hbody : t.body = t'.body) : t = t' := by
  obtain ⟨hkind, hrest⟩ := Kind.append_name_inj t.head_valueText_placeText
    t'.head_valueText_placeText hbody
  have hvalue := h'.value
  rw [← hkind] at hvalue
  obtain ⟨kind, value, start, stop⟩ := t
  obtain ⟨kind', value', start', stop'⟩ := t'
  obtain rfl : kind = kind' := hkind
  have hplace := h.place
  have hplace' := h'.place
  cases hmarked : isMarked ⟨kind, value, start, stop⟩ with
  | true =>
    have hmarked' : isMarked ⟨kind, value', start', stop'⟩ = true := hmarked
    rw [hmarked, if_pos rfl] at hplace
    rw [hmarked', if_pos rfl] at hplace'
    obtain ⟨first, last, hfirst, hlast⟩ := hplace
    obtain ⟨first', last', hfirst', hlast'⟩ := hplace'
    obtain rfl : start = some first := hfirst
    obtain rfl : stop = some last := hlast
    obtain rfl : start' = some first' := hfirst'
    obtain rfl : stop' = some last' := hlast'
    have hsplit : valueText value ++ (⟨first, last⟩ : Span).display.toList =
        valueText value' ++ (⟨first', last'⟩ : Span).display.toList := hrest
    obtain ⟨htext, hspan⟩ := Span.append_display_inj hsplit
    obtain ⟨rfl, rfl⟩ := Span.mk.inj hspan
    obtain rfl : value = value' := h.value.valueText_inj hvalue htext
    rfl
  | false =>
    have hmarked' : isMarked ⟨kind, value', start', stop'⟩ = false := hmarked
    rw [hmarked, if_neg Bool.false_ne_true] at hplace
    rw [hmarked', if_neg Bool.false_ne_true] at hplace'
    obtain rfl : start = none := hplace.1
    obtain rfl : stop = none := hplace.2
    obtain rfl : start' = none := hplace'.1
    obtain rfl : stop' = none := hplace'.2
    have htext : valueText value ++ [] = valueText value' ++ [] := hrest
    obtain rfl : value = value' := h.value.valueText_inj hvalue (List.append_cancel_right htext)
    rfl

theorem IsListed.relocate {t : Token} (hvalue : t.kind.Allows t.value) (hplace : t.IsPlaced)
    (move : Span → Span) : (t.relocate move).IsListed := by
  refine ⟨by rwa [kind_relocate, value_relocate], ?_⟩
  rw [IsPlaced] at hplace
  rw [isMarked_relocate]
  split at hplace
  · rename_i hkind
    obtain ⟨start, stop, hstart, hstop, _⟩ := hplace
    have hspan : t.span? = some ⟨start, stop⟩ := by rw [span?, hstart, hstop]
    rw [if_pos hkind, relocate_of_some hspan]
    exact ⟨_, _, rfl, rfl⟩
  · rename_i hkind
    have hspan : t.span? = none := by rw [span?, hplace.1]
    rw [if_neg hkind, relocate_of_none hspan]
    exact hplace

theorem isListed_of_mem_tokenize {expression : String} {offset : Nat} :
    ∀ t ∈ (tokenize expression offset).tokens, t.IsListed := by
  have htiling := tiling_items false 0 (strip expression.toList)
  have hstream := htiling.isStream fun c hc => isLineControl_of_mem_strip hc
  rw [tokens_tokenize_eq_stream, List.forall_mem_map]
  intro t ht
  exact IsListed.relocate (hstream.values t ht) (hstream.places t ht) _

end Token

/-! ## The line of a highlight -/

namespace Highlight

/-- The line of a highlight without the line feed at its end. -/
def body (h : Highlight) : List Char :=
  h.kind.title.toList ++ ' ' :: (h.label.toList ++ h.span.display.toList)

theorem toList_line (h : Highlight) : h.line.toList = h.body ++ ['\n'] := by
  simp [line, body]

theorem toList_lines (highlights : List Highlight) :
    (lines highlights).toList = highlights.flatMap fun h => h.body ++ ['\n'] := by
  rw [lines, String.toList_join, List.flatMap_map]
  simp only [toList_line]

/-- A line tells the highlight, whatever its label is. -/
theorem body_inj {h h' : Highlight} (hbody : h.body = h'.body) : h = h' := by
  have hblank : ∀ kind : Kind, ' ' ∉ kind.title.toList := by
    intro kind
    cases kind <;> decide
  have htitle : ∀ kind kind' : Kind, kind.title = kind'.title → kind = kind' := by
    intro kind kind'
    cases kind <;> cases kind' <;> decide
  obtain ⟨hkind, hrest⟩ := append_cons_inj (hblank _) (hblank _) hbody
  obtain ⟨hlabel, hspan⟩ := Span.append_display_inj hrest
  obtain ⟨kind, span, label⟩ := h
  obtain ⟨kind', span', label'⟩ := h'
  rw [mk.injEq]
  exact ⟨htitle _ _ (String.toList_inj.1 hkind), hspan, String.toList_inj.1 hlabel⟩

/-- The label of a highlight is the value of its token as one text. -/
theorem label_of_ofToken? {t : Token} {h : Highlight} (hof : ofToken? t = some h) :
    ∃ value, t.value = some value ∧ h.label = value.display := by
  obtain ⟨span, _, hof⟩ := Option.bind_eq_some_iff.1 hof
  split at hof
  · obtain ⟨column, hcolumn, rfl⟩ := Option.map_eq_some_iff.1 hof
    unfold Token.column? at hcolumn
    split at hcolumn
    · obtain rfl := Option.some.inj hcolumn
      exact ⟨_, ‹_›, rfl⟩
    · cases hcolumn
  · obtain ⟨name, hname, rfl⟩ := Option.map_eq_some_iff.1 hof
    unfold Token.text? at hname
    split at hname
    · obtain rfl := Option.some.inj hname
      exact ⟨_, ‹_›, rfl⟩
    · cases hname
  · cases hof

/-- A highlight of listed tokens has no line feed in its label. -/
theorem not_mem_body {tokens : List Token} (htokens : ∀ t ∈ tokens, t.IsListed) :
    ∀ h ∈ ofTokens tokens, '\n' ∉ h.body := by
  intro h hh
  obtain ⟨t, ht, hof⟩ := List.mem_filterMap.1 hh
  have hlabel : '\n' ∉ h.label.toList := by
    obtain ⟨value, hvalue, hlabel⟩ := label_of_ofToken? hof
    have hnot := (htokens t ht).value.not_mem_valueText
    rw [hvalue] at hnot
    rw [hlabel]
    exact fun hmem => hnot (List.mem_cons_of_mem _ hmem)
  have htitle : '\n' ∉ h.kind.title.toList := by
    cases h.kind <;> decide
  rw [body, List.mem_append, List.mem_cons, List.mem_append, not_or, not_or, not_or]
  exact ⟨htitle, by decide, hlabel, h.span.not_mem_display⟩

end Highlight

/-- Different streams of scans have different lines, as many as there are tokens, and the same holds
of the highlights of expressions as they are shown. -/
theorem lines_unambiguous (expression expression' : String) (offset offset' : Nat)
    (pretty pretty' : Bool) :
    let tokens := (tokenize expression offset).tokens
    let tokens' := (tokenize expression' offset').tokens
    let shown := Render.expression ⟨offset, .text, pretty, true⟩ expression
    let shown' := Render.expression ⟨offset', .text, pretty', true⟩ expression'
    ((Token.lines tokens).toList.count '\n' = tokens.length ∧
      (Token.lines tokens = Token.lines tokens' ↔ tokens = tokens')) ∧
    (shown.toList.count '\n' = (Highlight.ofTokens tokens).length ∧
      (shown = shown' ↔ Highlight.ofTokens tokens = Highlight.ofTokens tokens')) := by
  intro tokens tokens' shown shown'
  have hlisted : ∀ t ∈ tokens, t.IsListed := Token.isListed_of_mem_tokenize
  have hlisted' : ∀ t ∈ tokens', t.IsListed := Token.isListed_of_mem_tokenize
  have hbody : ∀ t ∈ tokens, '\n' ∉ t.body := fun t ht => (hlisted t ht).not_mem_body
  have hbody' : ∀ t ∈ tokens', '\n' ∉ t.body := fun t ht => (hlisted' t ht).not_mem_body
  have hmarked := Highlight.not_mem_body hlisted
  have hmarked' := Highlight.not_mem_body hlisted'
  have hshown : shown = Highlight.lines (Highlight.ofTokens tokens) := rfl
  have hshown' : shown' = Highlight.lines (Highlight.ofTokens tokens') := rfl
  rw [hshown, hshown']
  refine ⟨⟨?_, ?_, ?_⟩, ⟨?_, ?_, ?_⟩⟩
  · rw [Token.toList_lines, count_lines hbody]
  · intro h
    have htext := congrArg String.toList h
    rw [Token.toList_lines, Token.toList_lines] at htext
    exact lines_inj hbody hbody'
      (fun t ht t' ht' => (hlisted t ht).body_inj (hlisted' t' ht')) htext
  · exact congrArg Token.lines
  · rw [Highlight.toList_lines, count_lines hmarked]
  · intro h
    have htext := congrArg String.toList h
    rw [Highlight.toList_lines, Highlight.toList_lines] at htext
    exact lines_inj hmarked hmarked' (fun _ _ _ _ => Highlight.body_inj) htext
  · exact congrArg Highlight.lines

end ColumnFormula
