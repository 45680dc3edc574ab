import ColumnFormula.Proofs.Scan.Edit

/-!
# Blanks where a token may begin

Wherever a scan is about to read a character a token may begin, so a blank may be put in there: the
items in front stop at it, the blank is one more item in which nothing is found, and the items behind
are what they were.  It does not matter how deep in the arguments of functions the scan stands.
-/

namespace ColumnFormula

namespace Scan

open Source Text Token

/-! ## A blank put in -/

theorem items_blank {w : Char} (h : isBlank w = true) (inside : Bool) (rest : List Char) :
    items inside (w :: rest) = .blank w :: items inside rest := by
  have hrole := Role.of_eq_blank_iff.2 h
  rw [items_cons (not_closing_of_role hrole rfl), Item.first_of_role hrole]
  show Item.blank w :: items (inside || false) rest = _
  rw [Bool.or_false]

/-- A blank is no part of a name or a number, and opens nothing. -/
theorem not_name_of_isBlank {w : Char} (h : isBlank w = true) :
    isNameChar w = false ∧ w ≠ '(' ∧ ∀ rest, numberTail (w :: rest) = [] := by
  have hname : isNameChar w = false := by
    rw [Bool.eq_false_iff]
    intro hname
    rw [(Role.of_isNameChar hname).1] at h
    cases h
  have hne : ∀ d : Char, isBlank d = false → w ≠ d := by
    rintro d hd rfl
    rw [hd] at h
    cases h
  refine ⟨hname, hne '(' (by decide), fun rest => ?_⟩
  refine numberTail_eq_nil ?_ fun hpoint => absurd hpoint (hne '.' (by decide))
  rw [Role.of_eq_blank_iff.2 h]
  exact nofun

end Scan

open Scan Text

/-- Whatever a scan reads next, at the outer level or in the arguments of a function, a blank that is
no line control may be put in front of it: all that is found stays the same, and what stands behind
the blank is moved by one.  Words have to hold the positions of the longer expression; at the offset
zero they hold those of every text that fits into a memory. -/
theorem tokenize_insert_blank {expression : String} {offset : Nat}
    (hfits : offset + expression.length + 1 < positionLimit) {c : Config} {stop : Nat}
    {character : Char} (h : Reads (Source.ofExpression expression offset) c stop character)
    {w : Char} (hblank : isBlank w = true) (hkept : isLineControl w = false) :
    let place := (Source.ofExpression expression offset).place c.position
    let e : Edit := ⟨place, place, [w]⟩
    (e.raise offset).Moves (e.apply expression) (tokenize expression offset)
      (tokenize (e.apply expression) offset) := by
  intro place e
  obtain ⟨before, front, rest, hcut⟩ := h.cutAt
  obtain ⟨hname, hparen, hnumber⟩ := not_name_of_isBlank hblank
  have hplace : place = front.length := hcut.length_eq.symm
  have hrest := strip_cons_of_kept hcut.kept rest
  have hw : strip [w] = [w] := strip_cons_of_kept hkept []
  have hexpression : expression.toList = front ++ [] ++ character :: rest := by
    rw [List.append_nil, hcut.text_eq]
  have hfront := within_findingsOf_front hcut.items_eq
  rw [hcut.source_eq] at hfront
  have hback := within_findingsOf (carry false before) (strip (character :: rest))
  have hbefore : findingsOf 0 (items false (strip (front ++ [] ++ character :: rest))) =
      findingsOf 0 before ++ (findingsOf 0 (items (carry false before)
        (strip (character :: rest)))).raise (strip (front ++ [])).length := by
    rw [List.append_nil, strip_append, hrest, hcut.items_eq, findingsOf_split, hcut.source_eq]
  have hafter : findingsOf 0 (items false (strip (front ++ [w] ++ character :: rest))) =
      findingsOf 0 before ++ (findingsOf 0 (items (carry false before)
        (strip (character :: rest)))).raise (strip (front ++ [w])).length := by
    have hitems : items false (strip (front ++ [w] ++ character :: rest)) =
        (before ++ [.blank w]) ++ items (carry false before) (strip (character :: rest)) := by
      rw [strip_append, strip_append, hw, List.append_assoc, List.singleton_append, hrest,
        hcut.items_replace hname hparen fun _ _ => hnumber _, items_blank hblank,
        List.append_assoc, List.singleton_append]
    -- The blank is an item of its own.
    have hnothing : findingsOf 0 (before ++ [.blank w]) = findingsOf 0 before := by
      rw [findingsOf_append]
      exact Findings.append_none _
    have hlength : ((before ++ [Item.blank w]).flatMap Item.source).length =
        (strip (front ++ [w])).length := by
      rw [List.flatMap_append, hcut.source_eq, strip_append, hw]
      rfl
    rw [hitems, findingsOf_split, hnothing, hlength]
  have hmoved : offset + (Edit.apply ⟨front.length, front.length, [w]⟩ expression).length <
      positionLimit := by
    have htext := congrArg List.length hcut.text_eq
    rw [String.length_toList, List.length_append] at htext
    rw [Edit.length_apply]
    show offset + (min front.length _ + 1 + (_ - front.length)) < positionLimit
    omega
  have hmoves := moves_of_findings hexpression hfront hback hbefore hafter
    (Nat.lt_of_succ_lt hfits) hmoved
  rw [← hplace] at hmoves
  exact hmoves

/-- A blank in the arguments of a function, behind the parenthesis that opens them. -/
theorem tokenize_insert_blank_argument :
    3 + "f(x) 1".length + 1 < positionLimit ∧
      ∃ c stop, Reads (Source.ofExpression "f(x) 1" 3) c stop 'x' ∧
      isBlank ' ' = true ∧ isLineControl ' ' = false ∧
      (Source.ofExpression "f(x) 1" 3).place c.position = 2 ∧
      (Edit.raise 3 ⟨2, 2, [' ']⟩).Moves (Edit.apply ⟨2, 2, [' ']⟩ "f(x) 1")
        (tokenize "f(x) 1" 3) (tokenize (Edit.apply ⟨2, 2, [' ']⟩ "f(x) 1") 3) := by
  have hfits : 3 + "f(x) 1".length + 1 < positionLimit := by decide
  have hreads : Reads (Source.ofExpression "f(x) 1" 3)
      (advance (Source.ofExpression "f(x) 1" 3) (Source.ofExpression "f(x) 1" 3).length []
        (Config.initial (Source.ofExpression "f(x) 1" 3))) 3 'x' :=
    reads_second (by decide +kernel) (by decide +kernel)
  have hplace : (Source.ofExpression "f(x) 1" 3).place
      (advance (Source.ofExpression "f(x) 1" 3) (Source.ofExpression "f(x) 1" 3).length []
        (Config.initial (Source.ofExpression "f(x) 1" 3))).position = 2 := by decide +kernel
  have hblank : isBlank ' ' = true := by decide
  have hkept : isLineControl ' ' = false := by decide
  have hmoves := tokenize_insert_blank hfits hreads hblank hkept
  rw [hplace] at hmoves
  exact ⟨hfits, _, 3, hreads, hblank, hkept, hplace, hmoves⟩

end ColumnFormula
