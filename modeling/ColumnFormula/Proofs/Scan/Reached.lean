import ColumnFormula.Proofs.Scan.Refinement
import ColumnFormula.Proofs.Scan.Replace

/-!
# What a reached configuration has behind it

Wherever a run stands it has cut off the first items of its text, and has produced what is in them
(`Config.Behind`).  What it still carries of them is one bit: whether a name waits for a closing
parenthesis.  The regions that are open follow from that bit and the position, so what the machine
reads next is the first of the items that are left (`Config.Behind.step`).
-/

namespace ColumnFormula.Scan

open Source Text Token

variable {s : Source} {c next : Config}

/-! ## The open regions -/

/-- The ends of the regions that are open at a position, behind a name that waits for a closing
parenthesis or not. -/
def openRegions (s : Source) (inside : Bool) (position : Nat) : List Nat :=
  if inside = true ∧ searchClose s position < s.length then [searchClose s position, s.length]
  else [s.length]

theorem openRegions_of_lt {position : Nat} (h : searchClose s position < s.length) :
    openRegions s true position = [searchClose s position, s.length] :=
  if_pos ⟨rfl, h⟩

theorem openRegions_of_le {position : Nat} (h : s.length ≤ searchClose s position)
    (inside : Bool) : openRegions s inside position = [s.length] :=
  if_neg fun hlt => Nat.not_lt.2 h hlt.2

/-- What is left of the innermost region is what is in reach. -/
theorem chars_openRegions {inside : Bool} {position stop : Nat} (h : position ≤ s.length)
    (hstop : (openRegions s inside position).head? = some stop) :
    position ≤ stop ∧ stop ≤ s.length ∧ (inside = true → stop ≤ searchClose s position) ∧
      s.chars position stop = reach inside (s.chars position s.length) := by
  cases inside with
  | false =>
    obtain rfl := Option.some.inj hstop
    exact ⟨h, Nat.le_refl _, fun hfalse => absurd hfalse Bool.false_ne_true, rfl⟩
  | true =>
    have hle := searchClose_le h
    have hchars : s.chars position (searchClose s position) =
        reach true (s.chars position s.length) := by
      rw [searchClose_eq h]
      exact chars_of_isPrefix (List.takeWhile_prefix _)
    have hfind : stop = searchClose s position := by
      rcases Nat.lt_or_eq_of_le hle with hlt | heq
      · rw [openRegions_of_lt hlt] at hstop
        exact (Option.some.inj hstop).symm
      · rw [openRegions_of_le (Nat.le_of_eq heq.symm)] at hstop
        exact (Option.some.inj hstop).symm.trans heq.symm
    subst hfind
    exact ⟨le_searchClose s position, hle, fun _ => Nat.le_refl _, hchars⟩

/-- The regions stay open up to the end of the innermost one. -/
theorem openRegions_eq {inside : Bool} {position later stop : Nat} (h : position ≤ s.length)
    (hstop : (openRegions s inside position).head? = some stop) (hle : position ≤ later)
    (hlater : later ≤ stop) : openRegions s inside later = openRegions s inside position := by
  cases inside with
  | false => rfl
  | true =>
    have hfind := (chars_openRegions h hstop).2.2.1 rfl
    rw [openRegions, openRegions, searchClose_of_le h hle (Nat.le_trans hlater hfind)]

/-- A name opens the region up to the closing parenthesis that it waits for, unless that one is the
end of a region already. -/
theorem openRegions_name {inside : Bool} {position later stop : Nat} {outer : List Nat}
    (h : position ≤ s.length) (hregions : openRegions s inside position = stop :: outer)
    (hle : position ≤ later) (hlater : later ≤ stop) :
    openRegions s true later =
      if searchClose s later < stop then searchClose s later :: stop :: outer
      else stop :: outer := by
  have hhead : (openRegions s inside position).head? = some stop := by rw [hregions]; rfl
  obtain ⟨_, hlength, hfind, _⟩ := chars_openRegions h hhead
  cases inside with
  | false =>
    obtain ⟨rfl, rfl⟩ := List.cons.inj hregions
    by_cases hlt : searchClose s later < s.length
    · rw [if_pos hlt, openRegions_of_lt hlt]
    · rw [if_neg hlt, openRegions_of_le (Nat.le_of_not_lt hlt)]
  | true =>
    have hsame : searchClose s later = searchClose s position :=
      searchClose_of_le h hle (Nat.le_trans hlater (hfind rfl))
    rw [if_neg (by rw [hsame]; exact Nat.not_lt.2 (hfind rfl)), ← hregions]
    exact openRegions_eq h hhead hle hlater

/-! ## What is behind a configuration -/

/-- The items that a run has cut off when it stands at a configuration. -/
structure Config.Behind (s : Source) (before : List Item) (c : Config) : Prop where
  position_le : c.position ≤ s.length
  source_eq : before.flatMap Item.source = s.chars 0 c.position
  items_eq : items false (s.chars 0 s.length) =
    before ++ items (carry false before) (s.chars c.position s.length)
  regions : c.regions = openRegions s (carry false before) c.position
  remembered : Remembered s c
  produced : c.produced =
    ⟨placed s (findingsOf 0 before).tokens, reported s (findingsOf 0 before).unexpected⟩

namespace Config

theorem behind_initial (s : Source) : (Config.initial s).Behind s [] where
  position_le := Nat.zero_le _
  source_eq := by rw [Config.initial, chars_eq]; rfl
  items_eq := rfl
  regions := rfl
  remembered := fun close hclose => absurd hclose (by simp [Config.initial])
  produced := rfl

theorem produced_goOn (s : Source) (found : Findings) (position : Nat) (close : Option Nat)
    (c : Config) :
    (c.goOn s found position close).produced =
      ⟨c.produced.tokens ++ placed s found.tokens,
        c.produced.diagnostics ++ reported s found.unexpected⟩ := by
  simp [goOn, record, moveTo, Config.produced]

namespace Behind

variable {before : List Item} {stop : Nat} {d : Char} {rest : List Char}

theorem head_regions (h : c.Behind s before) (hstop : c.regions.head? = some stop) :
    (openRegions s (carry false before) c.position).head? = some stop :=
  h.regions ▸ hstop

/-- What is read next is the first of the items that are left. -/
theorem items_eq_cons (h : c.Behind s before) (hstop : c.regions.head? = some stop)
    (hchars : s.chars c.position stop = d :: rest) :
    c.position + (Item.first d rest).source.length ≤ stop ∧
      (Item.first d rest).carries (carry false before) =
        (carry false before || (Item.first d rest).isName) ∧
      items (carry false before) (s.chars c.position s.length) =
        Item.first d rest :: items ((Item.first d rest).carries (carry false before))
          (s.chars (c.position + (Item.first d rest).source.length) s.length) := by
  obtain ⟨_, hlength, _, hreach⟩ := chars_openRegions h.position_le (h.head_regions hstop)
  obtain ⟨hlt, hd, _⟩ := chars_eq_cons hchars
  have htext := chars_of_char? hd (Nat.lt_of_lt_of_le hlt hlength)
  have hpos := Item.one_le_length_source_first d rest
  have hbehind := Item.length_behind d rest
  have hlen := length_chars s c.position hlength
  rw [hchars, List.length_cons] at hlen
  rw [hchars, htext] at hreach
  have hclose : ¬ (carry false before = true ∧ d = ')') := by
    rintro ⟨hinside, rfl⟩
    rw [hinside] at hreach
    exact List.cons_ne_nil _ _ (hreach.trans (reach_eq_nil_iff.2 (Or.inr ⟨rfl, rfl⟩)))
  rw [reach_cons hclose] at hreach
  obtain ⟨_, rfl⟩ := List.cons.inj hreach
  have hdrop : ∀ n, 1 ≤ n →
      (s.chars (c.position + 1) s.length).drop (n - 1) = s.chars (c.position + n) s.length := by
    intro n hn
    rw [drop_chars, Nat.add_assoc, Nat.add_sub_cancel' hn]
  refine ⟨by omega, Item.carries_first hclose _, ?_⟩
  rw [htext, items_cons hclose, hdrop _ hpos, Item.carries_first hclose]

/-- A configuration that has gone over one more item has that item behind it as well. -/
theorem concat {it : Item} {position : Nat} {close : Option Nat} {regions : List Nat}
    (h : c.Behind s before) (hle : c.position ≤ position) (hlength : position ≤ s.length)
    (hitems : items (carry false before) (s.chars c.position s.length) =
      it :: items (it.carries (carry false before)) (s.chars position s.length))
    (hregions : regions = openRegions s (it.carries (carry false before)) position)
    (hremembered : Remembered s (c.goOn s (it.findings c.position) position close)) :
    ((c.goOn s (it.findings c.position) position close).within regions).Behind s
      (before ++ [it]) where
  position_le := hlength
  source_eq := by
    have htext := flatMap_source_items (carry false before) (s.chars c.position s.length)
    rw [hitems, List.flatMap_cons, flatMap_source_items, ← chars_append s hle hlength] at htext
    rw [List.flatMap_append, List.flatMap_singleton, h.source_eq, List.append_cancel_right htext]
    exact chars_append s (Nat.zero_le _) hle
  items_eq := by
    rw [h.items_eq, hitems, carry_concat, List.append_assoc]
    rfl
  regions := by
    rw [carry_concat]
    exact hregions
  remembered := hremembered
  produced := by
    have hposition : 0 + (before.flatMap Item.source).length = c.position := by
      rw [h.source_eq, length_chars s 0 h.position_le]
      omega
    have hfound : findingsOf 0 (before ++ [it]) = findingsOf 0 before ++ it.findings c.position := by
      rw [findingsOf_append, hposition]
      exact congrArg _ (Findings.append_none _)
    show (c.goOn s (it.findings c.position) position close).produced = _
    rw [produced_goOn, h.produced, hfound]
    simp [placed, reported]

/-- A region that is left has its closing parenthesis behind it. -/
theorem leave (h : c.Behind s before) {outer : List Nat} (hregions : c.regions = stop :: outer)
    (hend : s.chars c.position stop = []) (houter : outer ≠ []) :
    (leave outer c).Behind s (before ++ [.closing true]) := by
  have hstop : c.regions.head? = some stop := by rw [hregions]; rfl
  obtain ⟨hle, hlength, _, hreach⟩ := chars_openRegions h.position_le (h.head_regions hstop)
  have hposition : c.position = stop := by
    have hlen := length_chars s c.position hlength
    rw [hend, List.length_nil] at hlen
    omega
  -- Only inside a function's arguments is there a region around the one that is left.
  obtain ⟨hinside, hlt, rfl⟩ : carry false before = true ∧ stop < s.length ∧ outer = [s.length] := by
    have hopen := h.regions
    rw [hregions, openRegions] at hopen
    split at hopen
    · rename_i hinside
      obtain ⟨rfl, rfl⟩ := List.cons.inj hopen
      exact ⟨hinside.1, hinside.2, rfl⟩
    · exact absurd (List.cons.inj hopen).2 houter
  have hclose : s.chars c.position s.length = ')' :: s.chars (c.position + 1) s.length := by
    rw [hend] at hreach
    rcases reach_eq_nil_iff.1 hreach.symm with hnil | ⟨_, hhead⟩
    · have hlen := length_chars s c.position (Nat.le_refl s.length)
      rw [hnil, List.length_nil] at hlen
      omega
    · obtain ⟨more, hmore⟩ := List.head?_eq_some_iff.1 hhead
      rw [hmore, (chars_eq_cons hmore).2.2]
  have hitems : items (carry false before) (s.chars c.position s.length) =
      .closing true :: items false (s.chars (c.position + 1) s.length) := by
    rw [hclose, hinside, items_closing]
  have hnext : ((c.goOn s ((Item.closing true).findings c.position) (c.position + 1)
      c.nextClose).within [s.length]).Behind s (before ++ [.closing true]) :=
    h.concat (Nat.le_succ c.position) (by omega) hitems rfl
      (h.remembered.of_le h.position_le rfl (Nat.le_succ c.position))
  rw [Scan.leave, emit_bare s]
  exact hnext

/-- What is read in a region is behind the configuration that comes next. -/
theorem read (h : c.Behind s before) {outer : List Nat} (hregions : c.regions = stop :: outer)
    (hchars : s.chars c.position stop = d :: rest) (hstep : step s c = some next) :
    next.Behind s (before ++ [Item.first d rest]) := by
  have hstop : c.regions.head? = some stop := by rw [hregions]; rfl
  have hhead := h.head_regions hstop
  obtain ⟨_, hlength, _, _⟩ := chars_openRegions h.position_le hhead
  obtain ⟨hbound, hcarries, hitems⟩ := h.items_eq_cons hstop hchars
  have hle := Nat.le_add_right c.position (Item.first d rest).source.length
  have hlast := Nat.le_trans hbound hlength
  cases hname : (Item.first d rest).isName with
  | false =>
    rw [step_first hregions hlength hchars hname] at hstep
    obtain rfl := Option.some.inj hstep
    rw [hname, Bool.or_false] at hcarries
    have hsame : c.regions = openRegions s ((Item.first d rest).carries (carry false before))
        (c.position + (Item.first d rest).source.length) := by
      rw [hcarries, h.regions]
      exact (openRegions_eq h.position_le hhead hle hbound).symm
    exact h.concat hle hlast hitems hsame (h.remembered.of_le h.position_le rfl hle)
  | true =>
    rw [step_first_name hregions hlength hchars hname rfl h.remembered] at hstep
    obtain rfl := Option.some.inj hstep
    rw [hname, Bool.or_true] at hcarries
    have hopen := openRegions_name h.position_le (h.regions.symm.trans hregions) hle hbound
    have hfound : ∀ found, Remembered s (c.goOn s found
        (c.position + (Item.first d rest).source.length)
        (some (searchClose s (c.position + (Item.first d rest).source.length)))) := by
      intro found close hclose _
      exact (Option.some.inj hclose).symm
    -- The name opens a region of its own unless the one it stands in ends at the same parenthesis.
    split
    · rename_i hlt
      rw [if_pos hlt, ← hcarries] at hopen
      exact h.concat hle hlast hitems hopen.symm (hfound _)
    · rename_i hnot
      rw [if_neg hnot, ← hregions, ← hcarries] at hopen
      exact h.concat hle hlast hitems hopen.symm (hfound _)

/-- A step leaves the last region, or has one more item behind it. -/
theorem step (h : c.Behind s before) (hstep : Scan.step s c = some next) :
    next.regions = [] ∨ ∃ it, next.Behind s (before ++ [it]) := by
  cases hregions : c.regions with
  | nil =>
    rw [step_eq_none_iff.2 hregions] at hstep
    cases hstep
  | cons stop outer =>
    cases hchars : s.chars c.position stop with
    | cons d rest => exact Or.inr ⟨_, h.read hregions hchars hstep⟩
    | nil =>
      have hle : stop ≤ c.position := by
        have hstop : c.regions.head? = some stop := by rw [hregions]; rfl
        have hhead := h.head_regions hstop
        have hlength := length_chars s c.position (chars_openRegions h.position_le hhead).2.1
        rw [hchars, List.length_nil] at hlength
        omega
      rw [step_leaves hregions hle] at hstep
      obtain rfl := Option.some.inj hstep
      by_cases houter : outer = []
      · rw [houter]
        exact Or.inl rfl
      · exact Or.inr ⟨_, h.leave hregions hchars houter⟩

end Behind

end Config

/-- Wherever a run stands before its end, it has the first items of its text behind it. -/
theorem Reachable.behind (h : Reachable s c) : c.regions = [] ∨ ∃ before, c.Behind s before := by
  refine h.invariant (P := fun c => c.regions = [] ∨ ∃ before, c.Behind s before) ?_ ?_
  · exact Or.inr ⟨[], Config.behind_initial s⟩
  · rintro c next (hhalted | ⟨before, hbehind⟩) hstep
    · rw [step_eq_none_iff.2 hhalted] at hstep
      cases hstep
    · exact (hbehind.step hstep).imp id fun ⟨it, hnext⟩ => ⟨before ++ [it], hnext⟩

/-! ## What a run reads -/

/-- A run of the source stands in a region that ends at `stop`, and is about to read a character. -/
structure Reads (s : Source) (c : Config) (stop : Nat) (character : Char) : Prop where
  reachable : Reachable s c
  region : c.regions.head? = some stop
  next : s.charBefore stop c.position = some character

/-- What a run reads behind its first step. -/
theorem reads_second {stop : Nat} {character : Char}
    (hregion : (advance s s.length [] (Config.initial s)).regions.head? = some stop)
    (hnext : s.charBefore stop (advance s s.length [] (Config.initial s)).position =
      some character) :
    Reads s (advance s s.length [] (Config.initial s)) stop character :=
  ⟨.tail .refl rfl, hregion, hnext⟩

/-- The first items of the text are behind a configuration that reads, and the next one begins with
the character. -/
theorem Reads.behind {stop : Nat} {character : Char} (h : Reads s c stop character) :
    ∃ before rest, c.Behind s before ∧ s.chars c.position stop = character :: rest := by
  have hnext := h.next
  rw [charBefore_eq_head?] at hnext
  obtain ⟨rest, hchars⟩ := List.head?_eq_some_iff.1 hnext
  rcases h.reachable.behind with hhalted | ⟨before, hbehind⟩
  · have hregion := h.region
    rw [hhalted] at hregion
    cases hregion
  · exact ⟨before, rest, hbehind, hchars⟩

theorem diagnostics_read (s : Source) (stop : Nat) (character : Char) (c : Config) :
    (read s stop character c).diagnostics =
      if Role.of character = .unexpected then
        c.diagnostics.push ⟨character, s.expression, s.report c.position⟩
      else c.diagnostics := by
  rw [read]
  cases hrole : Role.of character with
  | bracket =>
    simp only [readBracket, Config.emit, Config.moveTo]
    repeat' split
    all_goals trivial
  | quote =>
    simp only [readString, Config.emit, Config.moveTo]
    split <;> rfl
  | name =>
    simp only [openArguments, readName, Config.emit, Config.moveTo]
    split <;> rfl
  | _ => rfl

theorem diagnostics_leave (outer : List Nat) (c : Config) :
    (leave outer c).diagnostics = c.diagnostics := by
  cases outer <;> rfl

/-- Every warning of a run is about an unexpected character that the run has read. -/
theorem Reachable.reads_of_mem_diagnostics (h : Reachable s c) :
    ∀ d ∈ c.diagnostics, ∃ earlier stop, Reads s earlier stop d.character ∧
      Role.of d.character = .unexpected ∧ d.position = s.report earlier.position := by
  induction h with
  | refl => exact fun d hd => absurd hd (by simp [Config.initial])
  | @tail middle next hreaches hstep ih =>
    unfold step at hstep
    split at hstep
    · cases hstep
    · rename_i stop outer hregions
      obtain rfl := Option.some.inj hstep
      unfold advance
      split
      · rename_i character hnext
        rw [diagnostics_read]
        split
        · rename_i hrole
          intro d hd
          rcases Array.mem_push.1 hd with hd | rfl
          · exact ih d hd
          · exact ⟨middle, stop, ⟨hreaches, by rw [hregions]; rfl, hnext⟩, hrole, rfl⟩
        · exact ih
      · rw [diagnostics_leave]
        exact ih

end ColumnFormula.Scan
