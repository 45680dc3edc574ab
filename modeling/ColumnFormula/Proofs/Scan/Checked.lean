import ColumnFormula.Proofs.Scan.Reached
import ColumnFormula.Scan.Checked

/-!
# No access of a scan fails

Every configuration that a run reaches has its cursor in its region, and its region in the source
(`Reachable.inRegions`); from there each operation of the checked machine succeeds and gives what the
machine takes.  What the operations need is little: a reader moves only over characters it has seen, so
it stays in the region, and it takes stretches only of what it went over.  A position is reported only
of a character of the expression, so no sum is greater than the offset and the length together.
-/

namespace ColumnFormula

namespace Scan

open Source Text Token

/-! ## Where the cursor stands -/

/-- The cursor stands in every open region, and no region goes past the source. -/
def Config.InRegions (s : Source) (c : Config) : Prop :=
  ∀ stop ∈ c.regions, c.position ≤ stop ∧ stop ≤ s.length

theorem inRegions_of_openRegions {s : Source} {inside : Bool} {position : Nat}
    (h : position ≤ s.length) :
    ∀ stop ∈ openRegions s inside position, position ≤ stop ∧ stop ≤ s.length := by
  intro stop hstop
  rw [openRegions] at hstop
  split at hstop
  · rcases List.mem_cons.1 hstop with rfl | hstop
    · exact ⟨le_searchClose s position, searchClose_le h⟩
    · obtain rfl := List.mem_singleton.1 hstop
      exact ⟨h, Nat.le_refl _⟩
  · obtain rfl := List.mem_singleton.1 hstop
    exact ⟨h, Nat.le_refl _⟩

theorem Reachable.inRegions {s : Source} {c : Config} (h : Reachable s c) : c.InRegions s := by
  intro stop hstop
  rcases h.behind with hhalted | ⟨before, hbehind⟩
  · rw [hhalted] at hstop
    cases hstop
  · rw [hbehind.regions] at hstop
    exact inRegions_of_openRegions hbehind.position_le stop hstop

/-- A region that is left has its end in front of the end of the region around it. -/
theorem Reachable.lt_of_regions {s : Source} {c : Config} (h : Reachable s c) {stop around : Nat}
    {outer : List Nat} (hregions : c.regions = stop :: around :: outer) :
    stop < around ∧ around ≤ s.length := by
  rcases h.behind with hhalted | ⟨before, hbehind⟩
  · rw [hhalted] at hregions
    cases hregions
  · have hopen := hregions.symm.trans hbehind.regions
    rw [openRegions] at hopen
    split at hopen
    · rename_i hlt
      obtain ⟨hstop, hopen⟩ := List.cons.inj hopen
      obtain ⟨rfl, _⟩ := List.cons.inj hopen
      exact ⟨hstop ▸ hlt.2, Nat.le_refl _⟩
    · cases (List.cons.inj hopen).2

end Scan

/-! ## Positions that a word holds -/

/-- Every position of the source can be reported, and so can the one behind it. -/
def Source.Fits (s : Source) : Prop :=
  ∀ position < s.length, s.offset + s.place position + 1 < positionLimit

theorem Source.fits_ofExpression {expression : String} {offset : Nat}
    (h : offset + expression.toList.length < positionLimit) :
    (ofExpression expression offset).Fits := by
  intro position hposition
  rw [length_ofExpression, ← List.length_map (f := (·.char)), map_char_kept] at hposition
  have hindex := Text.sourceIndex_lt hposition
  rw [place_ofExpression]
  show offset + Text.sourceIndex expression.toList position + 1 < positionLimit
  omega

/-- A position that words hold is reported as it is. -/
theorem Source.Fits.report_eq {s : Source} (h : s.Fits) {position : Nat}
    (hposition : position < s.length) : s.report position = s.offset + s.place position :=
  wrap_of_lt (Nat.lt_of_succ_lt (h position hposition))

namespace Scan.Checked

open Source Text Token

variable {s : Source} {stop position : Nat} {c : Config}

/-! ## The operations succeed -/

theorem ok_bind {α β : Type} (a : α) (f : α → Except Fault β) : (Except.ok a >>= f) = f a := rfl

theorem ensure_of {condition : Prop} [Decidable condition] (h : condition) (fault : Fault) :
    ensure condition fault = .ok () :=
  if_pos h

theorem exists_mark (h : position < s.length) : ∃ mark, s.marks[position]? = some mark := by
  rw [Array.getElem?_eq_getElem h]
  exact ⟨_, rfl⟩

theorem mark_eq {m : Mark} (h : s.marks[position]? = some m) : mark s position = .ok m := by
  rw [mark, h]

theorem lookAhead_eq {m : Mark} (h : position < stop) (hm : s.marks[position]? = some m) :
    lookAhead s stop position = .ok m := by
  rw [lookAhead, ensure_of h]
  exact mark_eq hm

theorem report_eq (hfits : s.Fits) (h : position < s.length) :
    report s position = .ok (s.report position) := by
  obtain ⟨m, hm⟩ := exists_mark h
  have hplace : s.place position = m.place := by
    rw [Source.place, hm]
    rfl
  have hlt : s.offset + m.place < positionLimit := by
    have hbehind := hfits position h
    omega
  rw [report, mark_eq hm, ok_bind, add, if_pos hlt, hfits.report_eq h, hplace]

theorem span_eq (hfits : s.Fits) {start : Nat} (h : start < stop) (hstop : stop ≤ s.length) :
    span s start stop = .ok (s.span start stop) := by
  have hlast : stop - 1 < s.length := by omega
  have hlt : s.report (stop - 1) + 1 < positionLimit := by
    rw [hfits.report_eq hlast]
    exact hfits _ hlast
  have hbehind : add (s.report (stop - 1)) 1 = .ok (wrap (s.report (stop - 1) + 1)) := by
    rw [add, if_pos hlt, wrap_of_lt hlt]
  rw [span, report_eq hfits (by omega), ok_bind, ensure_of h, ok_bind, report_eq hfits hlast,
    ok_bind, hbehind]
  rfl

theorem text_eq {start : Nat} (h : start ≤ stop) (hstop : stop ≤ s.length) :
    text s start stop = .ok (s.text start stop) := by
  rw [text, ensure_of ⟨h, hstop⟩]
  rfl

theorem moveTo_eq (h : position ≤ stop) (hstop : stop ≤ s.length) (c : Config) :
    moveTo s stop position c = .ok (c.moveTo position) := by
  rw [moveTo, ensure_of ⟨h, hstop⟩]
  rfl

/-- Inside a region there is a character at every position. -/
theorem exists_charBefore (h : position < stop) (hstop : stop ≤ s.length) :
    ∃ character, s.charBefore stop position = some character := by
  obtain ⟨m, hm⟩ := exists_mark (Nat.lt_of_lt_of_le h hstop)
  rw [charBefore, if_pos h, char?, hm]
  exact ⟨_, rfl⟩

/-- The cursor goes on as far as positions qualify, and is in the region all the way. -/
theorem goOver_eq {qualifies : Nat → Char → Except Fault Bool} {p : Nat → Bool}
    (h : position ≤ stop) (hstop : stop ≤ s.length)
    (hp : ∀ i character, s.charBefore stop i = some character → qualifies i character = .ok (p i)) :
    goOver s qualifies stop position = .ok (runEnd p position stop) := by
  fun_induction runEnd p position stop with
  | case1 position hgoes ih =>
    obtain ⟨character, hnext⟩ := exists_charBefore hgoes.1 hstop
    rw [goOver, ensure_of ⟨h, hstop⟩, ok_bind]
    split
    · simp_all
    · rename_i character' hnext'
      have hq := hp position character' hnext'
      rw [hgoes.2] at hq
      rw [hq]
      exact ih hgoes.1
  | case2 position hends =>
    rw [goOver, ensure_of ⟨h, hstop⟩, ok_bind]
    split
    · rfl
    · rename_i character hnext
      have hq := hp position character hnext
      have hpos := (charBefore_eq_some hnext).1
      have hfalse : p position = false := by simpa [hpos] using hends
      rw [hfalse] at hq
      rw [hq]
      rfl

theorem goOver_holds (h : position ≤ stop) (hstop : stop ≤ s.length) (p : Char → Bool) :
    goOver s (fun _ character => return p character) stop position =
      .ok (runEnd (s.holds p) position stop) := by
  refine goOver_eq h hstop ?_
  intro i character hnext
  rw [holds, (charBefore_eq_some hnext).2.2]
  rfl

/-- A point asks for the character behind it only where the region has one. -/
theorem inNumber_eq (hstop : stop ≤ s.length) (i : Nat) (character : Char)
    (hnext : s.charBefore stop i = some character) :
    inNumber s stop i character = .ok (Scan.inNumber s stop i) := by
  have hchar := (charBefore_eq_some hnext).2.2
  have hholds : ∀ p : Char → Bool, s.holds p i = p character := by
    intro p
    rw [holds, hchar]
    rfl
  rw [inNumber, Scan.inNumber, hholds, hholds]
  by_cases hdigit : character.isDigit = true
  · rw [if_pos hdigit, hdigit]
    rfl
  · rw [if_neg hdigit, Bool.eq_false_iff.2 hdigit]
    by_cases hpoint : character = '.' ∧ i + 1 < stop
    · obtain ⟨m, hm⟩ := exists_mark (Nat.lt_of_lt_of_le hpoint.2 hstop)
      have hbehind : s.holds Char.isDigit (i + 1) = m.char.isDigit := by
        rw [holds, char?, hm]
        rfl
      rw [if_pos hpoint, lookAhead_eq hpoint.2 hm, ok_bind, hbehind, hpoint.1,
        decide_eq_true hpoint.2]
      rfl
    · rw [if_neg hpoint]
      have hfalse : (character == '.' && decide (i + 1 < stop)) = false := by
        simpa using hpoint
      rw [hfalse]
      rfl

/-! ## The readers succeed -/

theorem readNumber_eq (h : c.position ≤ stop) (hstop : stop ≤ s.length) :
    readNumber s stop c = .ok (Scan.readNumber s stop c) := by
  have hpast := runEnd_le (p := Scan.inNumber s stop) h
  rw [readNumber, goOver_eq h hstop (inNumber_eq hstop), ok_bind,
    text_eq (le_runEnd _ _ _) (Nat.le_trans hpast hstop)]
  exact moveTo_eq hpast hstop _

theorem readBracket_eq (hfits : s.Fits) (h : c.position < stop) (hstop : stop ≤ s.length) :
    readBracket s stop c = .ok (Scan.readBracket s stop c) := by
  have hinner := le_runEnd (s.holds (· != ']')) (c.position + 1) stop
  have hpast : runEnd (s.holds (· != ']')) (c.position + 1) stop ≤ stop := runEnd_le h
  rw [readBracket, moveTo_eq h hstop, ok_bind, goOver_holds h hstop, ok_bind, Scan.readBracket]
  by_cases hfilled : c.position + 1 < runEnd (s.holds (· != ']')) (c.position + 1) stop
  · rw [if_pos hfilled, if_pos hfilled, text_eq hinner (Nat.le_trans hpast hstop), ok_bind,
      span_eq hfits hfilled (Nat.le_trans hpast hstop), ok_bind, moveTo_eq hpast hstop, ok_bind]
    split
    · exact moveTo_eq (charBefore_eq_some ‹_›).1 hstop _
    · rfl
  · rw [if_neg hfilled, if_neg hfilled, moveTo_eq hpast hstop, ok_bind]
    split
    · exact moveTo_eq (charBefore_eq_some ‹_›).1 hstop _
    · rfl

theorem readString_eq (h : c.position < stop) (hstop : stop ≤ s.length) (quote : Char) :
    readString s stop quote c = .ok (Scan.readString s stop quote c) := by
  have hinner := le_runEnd (s.holds (· != quote)) (c.position + 1) stop
  have hpast : runEnd (s.holds (· != quote)) (c.position + 1) stop ≤ stop := runEnd_le h
  rw [readString, moveTo_eq h hstop, ok_bind, goOver_holds h hstop, ok_bind, Scan.readString]
  split
  · rw [text_eq hinner (Nat.le_trans hpast hstop), ok_bind]
    exact moveTo_eq (charBefore_eq_some ‹_›).1 hstop _
  · exact moveTo_eq hpast hstop _

theorem readName_eq (hfits : s.Fits) {character : Char}
    (hnext : s.charBefore stop c.position = some character) (hname : isNameChar character = true)
    (hstop : stop ≤ s.length) : readName s stop c = .ok (Scan.readName s stop c) := by
  have hpos := (charBefore_eq_some hnext).1
  have hlt := lt_runEnd hpos (holds_of_charBefore hnext hname)
  have hpast := runEnd_le (p := s.holds isNameChar) (Nat.le_of_lt hpos)
  rw [readName, goOver_holds (Nat.le_of_lt hpos) hstop, ok_bind,
    text_eq (Nat.le_of_lt hlt) (Nat.le_trans hpast hstop), ok_bind,
    span_eq hfits hlt (Nat.le_trans hpast hstop), ok_bind, moveTo_eq hpast hstop, ok_bind,
    Scan.readName]
  split
  · exact moveTo_eq (charBefore_eq_some ‹_›).1 hstop _
  · rfl

/-- A search begins in the source. -/
theorem openArguments_eq (h : c.position ≤ s.length) (stop : Nat) :
    openArguments s stop c = .ok (Scan.openArguments s stop c) := by
  have hsearch : searchClose s c.position = .ok (Scan.searchClose s c.position) := by
    rw [searchClose, ensure_of h]
    rfl
  have hclose : nextClose s c.nextClose c.position = .ok (Scan.nextClose s c.nextClose c.position) := by
    cases hfound : c.nextClose with
    | none => exact hsearch
    | some close =>
      show (if c.position ≤ close then _ else _) = Except.ok (if c.position ≤ close then _ else _)
      split
      · rfl
      · exact hsearch
  rw [openArguments, hclose]
  rfl

theorem abandon_eq (hfits : s.Fits) (h : c.position < stop) (hstop : stop ≤ s.length)
    (character : Char) : abandon s stop character c = .ok (Scan.abandon s stop character c) := by
  rw [abandon, report_eq hfits (Nat.lt_of_lt_of_le h hstop)]
  exact moveTo_eq (Nat.le_refl stop) hstop _

/-! ## Steps succeed -/

theorem position_readName_le {character : Char}
    (hnext : s.charBefore stop c.position = some character) :
    (Scan.readName s stop c).position ≤ stop := by
  have hpast := runEnd_le (p := s.holds isNameChar) (Nat.le_of_lt (charBefore_eq_some hnext).1)
  rw [Scan.readName]
  split
  · exact (charBefore_eq_some ‹_›).1
  · exact hpast

theorem read_eq (hfits : s.Fits) {character : Char}
    (hnext : s.charBefore stop c.position = some character) (hstop : stop ≤ s.length) :
    read s stop character c = .ok (Scan.read s stop character c) := by
  have h := (charBefore_eq_some hnext).1
  rw [read, Scan.read]
  cases hrole : Role.of character with
  | digit => exact readNumber_eq (Nat.le_of_lt h) hstop
  | bracket => exact readBracket_eq hfits h hstop
  | quote => exact readString_eq h hstop character
  | name =>
    show (readName s stop c >>= _) = _
    rw [readName_eq hfits hnext (Role.of_eq_name_iff.1 hrole).1 hstop, ok_bind]
    exact openArguments_eq (Nat.le_trans (position_readName_le hnext) hstop) stop
  | unexpected => exact abandon_eq hfits h hstop character
  | _ => exact moveTo_eq h hstop _

/-- The parenthesis that ends a region is in the region around it. -/
theorem leave_eq {outer : List Nat}
    (h : ∀ around ∈ outer.head?, c.position < around ∧ around ≤ s.length) :
    leave s outer c = .ok (Scan.leave outer c) := by
  cases outer with
  | nil => rfl
  | cons around outer =>
    obtain ⟨hlt, hstop⟩ := h around rfl
    rw [leave, moveTo_eq hlt hstop]
    rfl

end Scan.Checked

open Scan

/-- Wherever a run stands, its cursor is in the region it scans and that region is in the source, and
the next step succeeds with every access checked: it finds a character and a place wherever it asks for
one, takes only stretches of the source, asks for the place only of what is not empty, looks ahead only
inside the region, and adds to the offset only what a word can hold.  What it does is the step of the
run. -/
theorem step_in_bounds {expression : String} {offset : Nat}
    (hfits : offset + expression.toList.length < positionLimit) {c : Config}
    (h : Reachable (Source.ofExpression expression offset) c) :
    (∀ stop ∈ c.regions,
        c.position ≤ stop ∧ stop ≤ (Source.ofExpression expression offset).length) ∧
      Checked.step (Source.ofExpression expression offset) c =
        .ok (step (Source.ofExpression expression offset) c) := by
  have hregions := h.inRegions
  refine ⟨hregions, ?_⟩
  rw [Checked.step, step]
  cases heq : c.regions with
  | nil => rfl
  | cons stop outer =>
    have hcursor := hregions stop (heq ▸ List.mem_cons_self)
    show (Checked.advance _ stop outer c).map some = .ok (some (advance _ stop outer c))
    rw [Checked.advance, Checked.ensure_of hcursor, Checked.ok_bind, advance]
    cases hnext : (Source.ofExpression expression offset).charBefore stop c.position with
    | some character =>
      show (Checked.read _ stop character c).map some = _
      rw [Checked.read_eq (Source.fits_ofExpression hfits) hnext hcursor.2]
      rfl
    | none =>
      have hleave : ∀ around ∈ outer.head?, c.position < around ∧
          around ≤ (Source.ofExpression expression offset).length := by
        intro around haround
        obtain ⟨further, rfl⟩ := List.head?_eq_some_iff.1 haround
        have hlt := h.lt_of_regions heq
        exact ⟨Nat.lt_of_le_of_lt hcursor.1 hlt.1, hlt.2⟩
      show (Checked.leave _ outer c).map some = _
      rw [Checked.leave_eq hleave]
      rfl

/-- Behind a name, in its arguments, where the offset leaves no position to spare. -/
theorem step_in_bounds_last :
    18446744073709551609 + "f(1.5)".toList.length < positionLimit ∧
      ∃ c, Reachable (Source.ofExpression "f(1.5)" 18446744073709551609) c ∧
        c.position = 2 ∧ c.regions = [5, 6] ∧
        (∀ stop ∈ c.regions, c.position ≤ stop ∧
          stop ≤ (Source.ofExpression "f(1.5)" 18446744073709551609).length) ∧
        Checked.step (Source.ofExpression "f(1.5)" 18446744073709551609) c =
          .ok (step (Source.ofExpression "f(1.5)" 18446744073709551609) c) := by
  have hfits : 18446744073709551609 + "f(1.5)".toList.length < positionLimit := by decide
  have hreachable : Reachable (Source.ofExpression "f(1.5)" 18446744073709551609)
      (advance (Source.ofExpression "f(1.5)" 18446744073709551609)
        (Source.ofExpression "f(1.5)" 18446744073709551609).length []
        (Config.initial (Source.ofExpression "f(1.5)" 18446744073709551609))) := .tail .refl rfl
  exact ⟨hfits, _, hreachable, by decide +kernel, by decide +kernel,
    step_in_bounds hfits hreachable⟩

end ColumnFormula
