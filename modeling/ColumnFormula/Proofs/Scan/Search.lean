import ColumnFormula.Proofs.Scan.Checked
import Mathlib.Data.List.Nodup
import Mathlib.Order.Bounds.Defs

/-!
# The remembered search is a fresh one

A name asks for the closing parenthesis that ends its arguments, and the scan answers by what it
remembers of its last search wherever it can.  In every configuration that a run reaches the answer is
that of a search of the region itself (`Remembered.firstClose?_eq_some_iff`), however far the last
search went, and whatever has been passed since.

What the searches of a run cost is said by running each once more with the positions that it looks at
(`searchLooking`).  All that a search has looked at is remembered until it is passed (`Config.Covers`),
and a new search begins only behind it, so no position is looked at twice (`Trail.disjoint_lookedAt`).
-/

namespace ColumnFormula.Scan

open Source Text Token

variable {s : Source} {stop position : Nat} {c next : Config}

/-! ## The first closing parenthesis of a region -/

/-- The first closing parenthesis of the region that ends at `stop`, from a position on, by the last
search or a new one. -/
def firstClose? (s : Source) (stop : Nat) (found : Option Nat) (position : Nat) : Option Nat :=
  let close := nextClose s found position
  if close < stop then some close else none

/-- Behind a name the region is opened that `firstClose?` ends, if it gives one. -/
theorem openArguments_eq_firstClose? (s : Source) (stop : Nat) (c : Config) :
    openArguments s stop c =
      { c with
        nextClose := some (nextClose s c.nextClose c.position)
        regions := (firstClose? s stop c.nextClose c.position).toList ++ c.regions } := by
  rw [openArguments, firstClose?]
  by_cases h : nextClose s c.nextClose c.position < stop <;> simp [h]

/-- A search stops at a closing parenthesis, unless it comes to the end of the source. -/
theorem char?_searchClose (h : searchClose s position < s.length) :
    s.char? (searchClose s position) = some ')' := by
  have hend := runEnd_fails (p := fun i => !s.holds (· == ')') i) h
  simpa [holds, Option.any_eq_true, searchClose] using hend

/-- A search goes over no closing parenthesis. -/
theorem char?_of_lt_searchClose {i : Nat} (hi : position ≤ i) (hlt : i < searchClose s position) :
    s.char? i ≠ some ')' := by
  intro hchar
  have hpast := runEnd_holds hi hlt
  simp [holds, hchar] at hpast

/-- The find of a search is the first closing parenthesis of every region that reaches beyond it. -/
theorem searchClose_eq_iff_isLeast {close : Nat} (hstop : stop ≤ s.length) :
    searchClose s position = close ∧ close < stop ↔
      IsLeast {i | position ≤ i ∧ i < stop ∧ s.char? i = some ')'} close := by
  constructor
  · rintro ⟨rfl, hlt⟩
    refine ⟨⟨le_searchClose s position, hlt, char?_searchClose (Nat.lt_of_lt_of_le hlt hstop)⟩, ?_⟩
    rintro i ⟨hle, _, hchar⟩
    exact Nat.le_of_not_lt fun hbefore => char?_of_lt_searchClose hle hbefore hchar
  · rintro ⟨⟨hle, hlt, hchar⟩, hleast⟩
    have hfind : searchClose s position ≤ close :=
      Nat.le_of_not_lt fun hbefore => char?_of_lt_searchClose hle hbefore hchar
    have hbound : searchClose s position < stop := Nat.lt_of_le_of_lt hfind hlt
    have hmem := hleast ⟨le_searchClose s position, hbound,
      char?_searchClose (Nat.lt_of_lt_of_le hbound hstop)⟩
    exact ⟨Nat.le_antisymm hfind hmem, hlt⟩

/-- What is remembered is good wherever the cursor may go before the next search. -/
theorem Remembered.nextClose_eq (h : Remembered s c) (hle : c.position ≤ position)
    (hlength : c.position ≤ s.length) :
    nextClose s c.nextClose position = searchClose s position :=
  Scan.nextClose_eq (c := c.moveTo position) (h.of_le hlength rfl hle)

section Remembered

variable (h : Remembered s c) (hlength : c.position ≤ s.length) (hle : c.position ≤ position)
  (hstop : stop ≤ s.length)

include h hlength hle hstop

theorem Remembered.firstClose?_eq_some_iff {close : Nat} :
    firstClose? s stop c.nextClose position = some close ↔
      IsLeast {i | position ≤ i ∧ i < stop ∧ s.char? i = some ')'} close := by
  rw [firstClose?, h.nextClose_eq hle hlength, ← searchClose_eq_iff_isLeast hstop]
  grind

theorem Remembered.firstClose?_eq_none_iff :
    firstClose? s stop c.nextClose position = none ↔
      ∀ i, position ≤ i → i < stop → s.char? i ≠ some ')' := by
  have hnone : firstClose? s stop c.nextClose position = none ↔ stop ≤ searchClose s position := by
    simp [firstClose?, h.nextClose_eq hle hlength]
  rw [hnone]
  constructor
  · intro hfar i hi hlt
    exact char?_of_lt_searchClose hi (Nat.lt_of_lt_of_le hlt hfar)
  · intro hnot
    refine Nat.le_of_not_lt fun hlt => ?_
    exact hnot _ (le_searchClose s position) hlt (char?_searchClose (Nat.lt_of_lt_of_le hlt hstop))

end Remembered

/-! ## What reading leaves as it was -/

@[simp] theorem nextClose_readName (s : Source) (stop : Nat) (c : Config) :
    (readName s stop c).nextClose = c.nextClose := by
  simp only [readName, Config.emit, Config.moveTo]
  split <;> rfl

@[simp] theorem nextClose_readBracket (s : Source) (stop : Nat) (c : Config) :
    (readBracket s stop c).nextClose = c.nextClose := by
  simp only [readBracket, Config.emit, Config.moveTo]
  repeat' split
  all_goals rfl

@[simp] theorem nextClose_readString (s : Source) (stop : Nat) (quote : Char) (c : Config) :
    (readString s stop quote c).nextClose = c.nextClose := by
  simp only [readString, Config.emit, Config.moveTo]
  split <;> rfl

/-- Only behind a name is there a search. -/
theorem nextClose_read (s : Source) (stop : Nat) (character : Char) (c : Config) :
    (read s stop character c).nextClose =
      if Role.of character = .name then
        some (nextClose s c.nextClose (readName s stop c).position)
      else c.nextClose := by
  rw [read]
  cases Role.of character with
  | bracket => simp
  | quote => simp
  | name => simp [openArguments]
  | _ => rfl

/-- Only behind a name is a region opened. -/
theorem regions_read (s : Source) (stop : Nat) (character : Char) (c : Config) :
    (read s stop character c).regions =
      if Role.of character = .name then
        (firstClose? s stop c.nextClose (readName s stop c).position).toList ++ c.regions
      else c.regions := by
  rw [read]
  cases Role.of character with
  | bracket => simp
  | quote => simp
  | name => simp [openArguments_eq_firstClose?]
  | _ => rfl

/-- What is remembered is good in every configuration, the last one included. -/
theorem Reachable.remembered (h : Reachable s c) : c.position ≤ s.length ∧ Remembered s c := by
  induction h with
  | refl =>
    have hbehind := Config.behind_initial s
    exact ⟨hbehind.position_le, hbehind.remembered⟩
  | @tail middle next hreach hstep ih =>
    rcases Reachable.behind (.tail hreach hstep) with hhalted | ⟨before, hbehind⟩
    · -- No region is open only when the whole source is left, and then the cursor stays.
      obtain ⟨stop, outer, hregions, ⟨character, _, rfl⟩ | ⟨_, rfl⟩⟩ := step_cases hstep
      · rw [regions_read, hregions] at hhalted
        split at hhalted <;> simp at hhalted
      · cases outer with
        | nil => exact ⟨ih.1, ih.2.of_le ih.1 rfl (Nat.le_refl _)⟩
        | cons around outer => cases hhalted
    · exact ⟨hbehind.position_le, hbehind.remembered⟩

/-! ## What a search looks at -/

/-- The search for a closing parenthesis once more, with the positions that it looks at. -/
def searchLooking (s : Source) (position : Nat) : Nat × List Nat :=
  if position < s.length then
    if s.holds (· == ')') position then (position, [position])
    else
      let (close, looked) := searchLooking s (position + 1)
      (close, position :: looked)
  else (position, [])
termination_by s.length - position

/-- The same find, by a look at every position up to it. -/
theorem searchLooking_eq (s : Source) (position : Nat) :
    searchLooking s position = (searchClose s position,
      List.range' position (min (searchClose s position + 1) s.length - position)) := by
  fun_induction searchLooking s position with
  | case1 position hlt hclose =>
    have hfind : searchClose s position = position := by
      rw [searchClose, runEnd, if_neg (by simp [hclose])]
    have hone : min (position + 1) s.length - position = 1 := by omega
    rw [hfind, hone]
    rfl
  | case2 position hlt hclose close looked heq ih =>
    have hfind : searchClose s position = searchClose s (position + 1) := by
      rw [searchClose, runEnd, if_pos ⟨hlt, by simpa using hclose⟩, searchClose]
    obtain ⟨rfl, rfl⟩ := Prod.mk.inj (heq.symm.trans ih)
    have hle := le_searchClose s (position + 1)
    have hcount : min (searchClose s (position + 1) + 1) s.length - position =
        min (searchClose s (position + 1) + 1) s.length - (position + 1) + 1 := by omega
    rw [hfind, hcount, List.range'_succ]
  | case3 position hlt =>
    have hfind : searchClose s position = position := by
      rw [searchClose, runEnd, if_neg fun h => hlt h.1]
    have hnone : min (position + 1) s.length - position = 0 := by omega
    rw [hfind, hnone]
    rfl

/-- `nextClose` with the positions that it looks at: none, if the last search has the answer. -/
def nextCloseLooking (s : Source) (found : Option Nat) (position : Nat) : Nat × List Nat :=
  match found with
  | some close => if position ≤ close then (close, []) else searchLooking s position
  | none => searchLooking s position

theorem fst_nextCloseLooking (s : Source) (found : Option Nat) (position : Nat) :
    (nextCloseLooking s found position).1 = nextClose s found position := by
  cases found with
  | none => rw [nextCloseLooking, searchLooking_eq, nextClose]
  | some close =>
    rw [nextCloseLooking, nextClose, searchLooking_eq]
    split <;> rfl

namespace Config

/-- The positions that the step from a configuration looks at in search of a closing parenthesis. -/
def lookedAt (s : Source) (c : Config) : List Nat :=
  match c.regions with
  | [] => []
  | stop :: _ =>
    match s.charBefore stop c.position with
    | none => []
    | some character =>
      if Role.of character = .name then
        (nextCloseLooking s c.nextClose (readName s stop c).position).2
      else []

/-- The step from the configuration searches from the position on: it reads a name that ends there, and
no find is remembered that has not been passed. -/
def SearchesFrom (s : Source) (c : Config) (position : Nat) : Prop :=
  ∃ stop outer character, c.regions = stop :: outer ∧
    s.charBefore stop c.position = some character ∧ Role.of character = .name ∧
    position = (readName s stop c).position ∧ ∀ close ∈ c.nextClose, close < position

/-- A step that searches looks at every position from the start of its search to the find, or to the
end of the source if there is none. -/
theorem SearchesFrom.lookedAt_eq (h : c.SearchesFrom s position) :
    c.lookedAt s = List.range' position (min (searchClose s position + 1) s.length - position) := by
  obtain ⟨stop, outer, character, hregions, hnext, hrole, rfl, hpassed⟩ := h
  have hsearch : nextCloseLooking s c.nextClose (readName s stop c).position =
      searchLooking s (readName s stop c).position := by
    unfold nextCloseLooking
    split
    · rw [if_neg (Nat.not_le.2 (hpassed _ ‹_›))]
    · rfl
  simp only [lookedAt, hregions, hnext, if_pos hrole, hsearch, searchLooking_eq]

/-- Its find is what is remembered from then on. -/
theorem SearchesFrom.nextClose_eq (h : c.SearchesFrom s position) (hstep : step s c = some next) :
    next.nextClose = some (searchClose s position) := by
  obtain ⟨stop, outer, character, hregions, hnext, hrole, rfl, hpassed⟩ := h
  have hread : step s c = some (read s stop character c) := by
    simp [step, advance, hregions, hnext]
  obtain rfl := Option.some.inj (hread.symm.trans hstep)
  rw [nextClose_read, if_pos hrole]
  unfold Scan.nextClose
  split
  · rw [if_neg (Nat.not_le.2 (hpassed _ ‹_›))]
  · rfl

/-- A step that does not search looks at nothing. -/
theorem lookedAt_eq_nil (h : ∀ position, ¬ c.SearchesFrom s position) : c.lookedAt s = [] := by
  unfold lookedAt
  split
  · rfl
  · rename_i stop outer hregions
    split
    · rfl
    · rename_i character hnext
      split
      · rename_i hrole
        have hnot := h (readName s stop c).position
        cases hfound : c.nextClose with
        | none =>
          refine absurd ⟨stop, outer, character, hregions, hnext, hrole, rfl, ?_⟩ hnot
          rw [hfound]
          exact nofun
        | some close =>
          have hle : (readName s stop c).position ≤ close := by
            refine Nat.le_of_not_lt fun hlt => ?_
            refine hnot ⟨stop, outer, character, hregions, hnext, hrole, rfl, ?_⟩
            rw [hfound]
            rintro _ ⟨⟩
            exact hlt
          rw [nextCloseLooking, if_pos hle]
      · rfl

/-- What is looked at is between the start of a search and its find. -/
theorem mem_lookedAt {i : Nat} (hi : i ∈ c.lookedAt s) :
    ∃ position, c.SearchesFrom s position ∧ position ≤ i ∧ i ≤ searchClose s position := by
  by_cases h : ∃ position, c.SearchesFrom s position
  · obtain ⟨position, hsearches⟩ := h
    rw [hsearches.lookedAt_eq, List.mem_range'_1] at hi
    exact ⟨position, hsearches, by omega, by omega⟩
  · rw [lookedAt_eq_nil fun position hsearches => h ⟨position, hsearches⟩] at hi
    cases hi

theorem nodup_lookedAt (s : Source) (c : Config) : (c.lookedAt s).Nodup := by
  by_cases h : ∃ position, c.SearchesFrom s position
  · obtain ⟨position, hsearches⟩ := h
    rw [hsearches.lookedAt_eq]
    exact List.nodup_range'
  · rw [lookedAt_eq_nil fun position hsearches => h ⟨position, hsearches⟩]
    exact List.nodup_nil

/-- The last search has looked at the position, or at one behind it. -/
def Covers (c : Config) (i : Nat) : Prop :=
  ∃ close, c.nextClose = some close ∧ i ≤ close

/-- A new search begins behind all that the last one has looked at. -/
theorem not_covers_of_mem_lookedAt {i : Nat} (hi : i ∈ c.lookedAt s) : ¬ c.Covers i := by
  rintro ⟨close, hclose, hle⟩
  obtain ⟨position, ⟨_, _, _, _, _, _, _, hpassed⟩, hstart, _⟩ := mem_lookedAt hi
  have hlt := hpassed close hclose
  omega

/-- What a step looks at is covered from then on. -/
theorem covers_of_mem_lookedAt {i : Nat} (hstep : step s c = some next) (hi : i ∈ c.lookedAt s) :
    next.Covers i := by
  obtain ⟨position, hsearches, _, hfind⟩ := mem_lookedAt hi
  exact ⟨_, hsearches.nextClose_eq hstep, hfind⟩

/-- What is covered stays covered: a new find is further on than the old one. -/
theorem Covers.step {i : Nat} (h : c.Covers i) (hstep : Scan.step s c = some next) :
    next.Covers i := by
  obtain ⟨close, hclose, hle⟩ := h
  obtain ⟨stop, outer, hregions, ⟨character, hnext, rfl⟩ | ⟨_, rfl⟩⟩ := step_cases hstep
  · rw [Covers, nextClose_read]
    split
    · have hfind := le_searchClose s (readName s stop c).position
      rw [hclose, Scan.nextClose]
      refine ⟨_, rfl, ?_⟩
      split <;> omega
    · exact ⟨close, hclose, hle⟩
  · refine ⟨close, ?_, hle⟩
    cases outer <;> exact hclose

end Config

/-! ## All the searches of a run -/

variable {before : List Config}

/-- Behind a trail all is covered that was looked at on it. -/
theorem Trail.covers (h : Trail s before c) :
    ∀ d ∈ before, ∀ i ∈ d.lookedAt s, c.Covers i := by
  induction h with
  | start => exact fun d hd => absurd hd List.not_mem_nil
  | step _ hstep ih =>
    intro d hd i hi
    rcases List.mem_append.1 hd with hd | hd
    · exact (ih d hd i hi).step hstep
    · rw [List.mem_singleton.1 hd] at hi
      exact Config.covers_of_mem_lookedAt hstep hi

/-- No two steps look at the same position. -/
theorem Trail.disjoint_lookedAt (h : Trail s before c) :
    (before.map (Config.lookedAt s)).Pairwise List.Disjoint := by
  induction h with
  | start => exact List.Pairwise.nil
  | step htrail _ ih =>
    rw [List.map_append, List.pairwise_append]
    refine ⟨ih, List.pairwise_singleton _ _, ?_⟩
    intro earlier hearlier looked hlooked i hi hi'
    obtain ⟨d, hd, rfl⟩ := List.mem_map.1 hearlier
    obtain rfl := List.mem_singleton.1 hlooked
    exact Config.not_covers_of_mem_lookedAt hi' (htrail.covers d hd i hi)

end ColumnFormula.Scan

namespace ColumnFormula

open Scan

/-- Wherever a run stands, what it remembers of its last search answers like a new search: from every
position that the cursor comes to before the next one, and for every end of a region, the answer is the
first closing parenthesis of that stretch, and there is no answer if it has none.  A step that searches
looks at the positions from the start of its search to its find, which is remembered from then on, and
every other step looks at none.  So the searches that a run makes look at ranges of the source that have
no position in common, and at every position at most once. -/
theorem closing_search_fresh (expression : String) (offset : Nat) :
    let s := Source.ofExpression expression offset
    (∀ c, Reachable s c → ∀ position ≥ c.position, ∀ stop ≤ s.length,
      (∀ close, firstClose? s stop c.nextClose position = some close ↔
        IsLeast {i | position ≤ i ∧ i < stop ∧ s.char? i = some ')'} close) ∧
      (firstClose? s stop c.nextClose position = none ↔
        ∀ i, position ≤ i → i < stop → s.char? i ≠ some ')')) ∧
    (∀ found position, (nextCloseLooking s found position).1 = nextClose s found position) ∧
    (∀ (c : Config) position, c.SearchesFrom s position →
      c.lookedAt s = List.range' position (min (searchClose s position + 1) s.length - position) ∧
      ∀ next, step s c = some next → next.nextClose = some (searchClose s position)) ∧
    (∀ c : Config, (∀ position, ¬ c.SearchesFrom s position) → c.lookedAt s = []) ∧
    ∀ before c, Trail s before c →
      (before.map (Config.lookedAt s)).Pairwise List.Disjoint ∧
      (before.flatMap (Config.lookedAt s)).Nodup := by
  intro s
  refine ⟨?_, fst_nextCloseLooking s, ?_, fun c h => Config.lookedAt_eq_nil h, ?_⟩
  · intro c hc position hle stop hstop
    obtain ⟨hlength, hremembered⟩ := hc.remembered
    exact ⟨fun close => hremembered.firstClose?_eq_some_iff hlength hle hstop,
      hremembered.firstClose?_eq_none_iff hlength hle hstop⟩
  · intro c position h
    exact ⟨h.lookedAt_eq, fun next hstep => h.nextClose_eq hstep⟩
  · intro before c htrail
    have hdisjoint := htrail.disjoint_lookedAt
    refine ⟨hdisjoint, ?_⟩
    rw [List.nodup_flatMap]
    refine ⟨?_, (List.pairwise_map (f := Config.lookedAt s)).1 hdisjoint⟩
    exact fun d _ => d.nodup_lookedAt s

/-- The answer that is remembered is the one a new search gives. -/
theorem closing_search_fresh_argument :
    let s := Source.ofExpression "a(b)" 0
    let c := advance s s.length [] (Config.initial s)
    Reachable s c ∧ c.nextClose = some 3 ∧ firstClose? s 4 c.nextClose c.position = some 3 ∧
      IsLeast {i | c.position ≤ i ∧ i < 4 ∧ s.char? i = some ')'} 3 ∧
      (Config.initial s).SearchesFrom s 2 ∧
      (Config.initial s).lookedAt s = List.range' 2 (min (searchClose s 2 + 1) s.length - 2) := by
  intro s c
  have hreachable : Reachable s c := .tail .refl rfl
  have hanswer : firstClose? s 4 c.nextClose c.position = some 3 := by decide +kernel
  have hsearches : (Config.initial s).SearchesFrom s 2 :=
    ⟨4, [], 'a', by decide +kernel, by decide +kernel, by decide, by decide +kernel, nofun⟩
  obtain ⟨hfresh, _, hlooks, _⟩ := closing_search_fresh "a(b)" 0
  have hleast := (hfresh c hreachable c.position (Nat.le_refl _) 4 (by decide)).1 3
  exact ⟨hreachable, by decide +kernel, hanswer, hleast.1 hanswer, hsearches,
    (hlooks _ _ hsearches).1⟩

end ColumnFormula
