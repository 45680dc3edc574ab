import ColumnFormula.Proofs.Scan.Search

/-!
# How deep regions nest, and how long a scan takes

Every function's name asks for a region of its own, yet at most one is ever open inside the whole
source.  The region of a function's arguments ends at the first closing parenthesis, so there is none
in it for another name to find (`Config.WellNested`).  And every step but the last one moves the cursor
on, so a scan takes at most one step more than there are characters (`Trail.length_le`).
-/

namespace ColumnFormula.Scan

open Source Text Token

variable {s : Source} {stop : Nat} {outer : List Nat} {c next last : Config}

/-! ## Regions -/

theorem length_openRegions_le (s : Source) (inside : Bool) (position : Nat) :
    (openRegions s inside position).length ≤ 2 := by
  rw [openRegions]
  split <;> simp

/-- A region that is open inside another one ends where a search from the cursor on does. -/
theorem Reachable.eq_searchClose (h : Reachable s c) {around : Nat}
    (hregions : c.regions = stop :: around :: outer) : stop = searchClose s c.position := by
  rcases h.behind with hhalted | ⟨before, hbehind⟩
  · rw [hhalted] at hregions
    cases hregions
  · have hopen := hbehind.regions.symm.trans hregions
    rw [openRegions] at hopen
    split at hopen
    · exact (List.cons.inj hopen).1.symm
    · cases (List.cons.inj hopen).2

theorem Reachable.depth_le (h : Reachable s c) : c.regions.length ≤ 2 := by
  rcases h.behind with hhalted | ⟨before, hbehind⟩
  · rw [hhalted]
    exact Nat.zero_le 2
  · rw [hbehind.regions]
    exact length_openRegions_le s _ _

/-! ## The cursor -/

/-- What is read ends inside the region. -/
theorem Reachable.position_read_le (h : Reachable s c) (hregions : c.regions = stop :: outer)
    {character : Char} (hnext : s.charBefore stop c.position = some character) :
    (read s stop character c).position ≤ stop := by
  have hstep : step s c = some (read s stop character c) := by
    simp [step, advance, hregions, hnext]
  have hnext : Reachable s (read s stop character c) := .tail h hstep
  refine (hnext.inRegions stop ?_).1
  -- Reading closes no region.
  rw [regions_read, hregions]
  split <;> simp

theorem Reachable.position_eq_of_leaves (h : Reachable s c) (hregions : c.regions = stop :: outer)
    (hnext : s.charBefore stop c.position = none) : c.position = stop := by
  obtain ⟨hle, hlength⟩ := h.inRegions stop (hregions ▸ List.mem_cons_self)
  refine Nat.le_antisymm hle (Nat.le_of_not_lt fun hlt => ?_)
  obtain ⟨character, hsome⟩ := Checked.exists_charBefore hlt hlength
  rw [hnext] at hsome
  cases hsome

/-- A step moves the cursor on, unless it leaves the whole source. -/
theorem position_step (h : step s c = some next) :
    c.position < next.position ∨ (c.position = next.position ∧ next.regions = []) := by
  obtain ⟨stop, outer, _, ⟨character, hnext, rfl⟩ | ⟨_, rfl⟩⟩ := step_cases h
  · exact Or.inl (read_progress hnext).1
  · cases outer with
    | nil => exact Or.inr ⟨rfl, rfl⟩
    | cons around outer => exact Or.inl (Nat.lt_succ_self c.position)

theorem Reaches.position_le (h : Reaches s c last) : c.position ≤ last.position := by
  induction h with
  | refl => exact Nat.le_refl _
  | tail _ hstep ih =>
    have := position_step hstep
    omega

/-- As many steps as positions have been passed, and one more if the scan is over. -/
theorem Trail.length_le {before : List Config} (h : Trail s before c) :
    before.length ≤ c.position + if c.regions = [] then 1 else 0 := by
  induction h with
  | start => exact Nat.zero_le _
  | @step before c next _ hstep ih =>
    have hopen : c.regions ≠ [] := by
      intro hhalted
      rw [step_eq_none_iff.2 hhalted] at hstep
      cases hstep
    rw [if_neg hopen] at ih
    rw [List.length_append, List.length_singleton]
    rcases position_step hstep with hlt | ⟨heq, hhalted⟩
    · omega
    · rw [if_pos hhalted]
      omega

/-! ## Configurations that nest well -/

/-- The regions of a configuration nest as they should, and its cursor goes through the innermost one
from left to right. -/
structure Config.WellNested (s : Source) (c : Config) : Prop where
  /-- Inside the whole source at most one more region is open. -/
  depth : c.regions.length ≤ 2
  cursor : ∀ stop ∈ c.regions, c.position ≤ stop ∧ stop ≤ s.length
  /-- The arguments of a function have no closing parenthesis left in them. -/
  arguments : ∀ stop around outer, c.regions = stop :: around :: outer →
    ∀ i, c.position ≤ i → i < stop → s.char? i ≠ some ')'
  /-- A name in the arguments of a function finds no closing parenthesis, and opens no region. -/
  name : ∀ stop around outer character, c.regions = stop :: around :: outer →
    s.charBefore stop c.position = some character → Role.of character = .name →
      firstClose? s stop (readName s stop c).nextClose (readName s stop c).position = none ∧
        (read s stop character c).regions = c.regions
  /-- What is read in a region moves the cursor on, and not past the end of the region. -/
  reads : ∀ stop outer character, c.regions = stop :: outer →
    s.charBefore stop c.position = some character →
      c.position < (read s stop character c).position ∧ (read s stop character c).position ≤ stop
  /-- A region is left at its end. -/
  leaves : ∀ stop outer, c.regions = stop :: outer → s.charBefore stop c.position = none →
    c.position = stop

theorem Reachable.wellNested (h : Reachable s c) : c.WellNested s where
  depth := h.depth_le
  cursor := h.inRegions
  arguments stop around outer hregions i hi hlt := by
    rw [h.eq_searchClose hregions] at hlt
    exact char?_of_lt_searchClose hi hlt
  name stop around outer character hregions hnext hrole := by
    have hname := (Role.of_eq_name_iff.1 hrole).1
    have hle := Nat.le_of_lt (position_lt_readName hnext hname)
    have hnone : firstClose? s stop c.nextClose (readName s stop c).position = none := by
      obtain ⟨hlength, hremembered⟩ := h.remembered
      have hstop := (h.inRegions stop (hregions ▸ List.mem_cons_self)).2
      rw [hremembered.firstClose?_eq_none_iff hlength hle hstop]
      intro i hi hlt
      rw [h.eq_searchClose hregions] at hlt
      exact char?_of_lt_searchClose (Nat.le_trans hle hi) hlt
    rw [nextClose_readName, regions_read, if_pos hrole, hnone]
    exact ⟨rfl, rfl⟩
  reads stop outer character hregions hnext :=
    ⟨(read_progress hnext).1, h.position_read_le hregions hnext⟩
  leaves stop outer hregions hnext := h.position_eq_of_leaves hregions hnext

end ColumnFormula.Scan

namespace ColumnFormula

open Scan Token

/-- However many names and parentheses an expression has, its scan has at most two regions open.  In
the arguments of a function no closing parenthesis is left, so a name there opens no region.  Whatever
is read moves the cursor on within its region, a region is left exactly at its end, and the cursor
never goes back.  So the scan ends, and takes at most one step more than there are characters. -/
theorem scan_nesting (expression : String) (offset : Nat) :
    let s := Source.ofExpression expression offset
    (∀ c, Reachable s c →
      c.WellNested s ∧ ∀ last, Reaches s c last → c.position ≤ last.position) ∧
    (∀ before c, Trail s before c → before.length ≤ s.length + 1) ∧
    ∃ before, Trail s before (run s (Config.initial s)) ∧
      step s (run s (Config.initial s)) = none := by
  intro s
  refine ⟨?_, ?_, ?_⟩
  · intro c hc
    exact ⟨hc.wellNested, fun last hlast => hlast.position_le⟩
  · intro before c htrail
    have hcount := htrail.length_le
    have hposition := htrail.reachable.remembered.1
    split at hcount <;> omega
  · obtain ⟨before, htrail⟩ := (reachable_run s).exists_trail
    exact ⟨before, htrail, step_run s _⟩

/-- In the arguments of a function a name finds nothing, though a closing parenthesis is to come. -/
theorem scan_nesting_argument :
    let s := Source.ofExpression "a(b)" 0
    let c := advance s s.length [] (Config.initial s)
    Reachable s c ∧ c.regions = [3, 4] ∧ s.charBefore 3 c.position = some 'b' ∧
      firstClose? s 3 (readName s 3 c).nextClose (readName s 3 c).position = none := by
  intro s c
  have hreachable : Reachable s c := .tail .refl rfl
  have hregions : c.regions = [3, 4] := by decide +kernel
  have hnext : s.charBefore 3 c.position = some 'b' := by decide +kernel
  have hwell := ((scan_nesting "a(b)" 0).1 c hreachable).1
  exact ⟨hreachable, hregions, hnext, (hwell.name 3 4 [] 'b' hregions hnext (by decide)).1⟩

end ColumnFormula
