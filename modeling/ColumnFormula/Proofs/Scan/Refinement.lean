import ColumnFormula.Proofs.Scan.Close
import ColumnFormula.Proofs.Scan.Reader
import ColumnFormula.Proofs.Text.Strip
import ColumnFormula.Scan.Reachable

/-!
# The machine finds what the nested scan finds

The machine keeps one source, the ends of the open regions and what it remembers of its last search;
the nested scan takes the arguments of every name out as a text of their own, to any depth.  They
agree region by region (`scansTo`): wherever the machine stands in a region, its steps lead to
the region's end, and what they add is what the nested scan finds in the rest of the region's text.
The stack of regions below the one in question is arbitrary, so the statement can be used again for
the region of a function's arguments.
-/

namespace ColumnFormula.Scan

open Source Token Config

variable {s : Source} {stop : Nat} {outer : List Nat} {c : Config}

/-! ## One step in a region -/

theorem step_reads {d : Char} {rest : List Char} (hregions : c.regions = stop :: outer)
    (h : s.chars c.position stop = d :: rest) : step s c = some (read s stop d c) := by
  have hd : s.charBefore stop c.position = some d := by rw [charBefore_eq_head?, h]; rfl
  simp [step, advance, hregions, hd]

theorem step_leaves (hregions : c.regions = stop :: outer) (h : stop ≤ c.position) :
    step s c = some (leave outer c) := by
  have hnone : s.charBefore stop c.position = none := by rw [charBefore, if_neg (by omega)]
  simp [step, advance, hregions, hnone]

/-- The configuration that has gone on to a position of the same region and has found something on
the way. -/
def Config.goOn (s : Source) (found : Findings) (position : Nat) (close : Option Nat) (c : Config) :
    Config :=
  { (c.record s found).moveTo position with nextClose := close }

@[simp] theorem position_goOn (s : Source) (found : Findings) (p : Nat) (f : Option Nat)
    (c : Config) : (c.goOn s found p f).position = p := rfl

theorem goOn_goOn (s : Source) (a b : Findings) (p q : Nat) (f g : Option Nat) (c : Config) :
    (c.goOn s a p f).goOn s b q g = c.goOn s (a ++ b) q g := by
  have hrecord := record_record s a b c
  simp only [goOn, Config.moveTo, record, Config.mk.injEq] at hrecord ⊢
  exact ⟨trivial, hrecord.1, trivial, hrecord.2.2.2⟩

/-- The configuration with other regions open. -/
def Config.within (regions : List Nat) (c : Config) : Config :=
  { c with regions := regions }

theorem goOn_within (s : Source) (found : Findings) (p : Nat) (f : Option Nat) (regions : List Nat)
    (c : Config) : (c.within regions).goOn s found p f = (c.goOn s found p f).within regions := rfl

theorem openArguments_eq (hregions : c.regions = stop :: outer) (h : Remembered s c) :
    openArguments s stop c =
      if searchClose s c.position < stop then
        { c with nextClose := some (searchClose s c.position) }.within
          (searchClose s c.position :: stop :: outer)
      else { c with nextClose := some (searchClose s c.position) } := by
  rw [openArguments, nextClose_eq h]
  by_cases hclose : searchClose s c.position < stop
  · simp [hclose, within, hregions]
  · simp [hclose]

/-- A character in a region is the first one of an item, which the machine reads. -/
theorem step_first {d : Char} {rest : List Char} (hregions : c.regions = stop :: outer)
    (hstop : stop ≤ s.length) (h : s.chars c.position stop = d :: rest)
    (hname : (Item.first d rest).isName = false) :
    step s c = some (c.goOn s ((Item.first d rest).findings c.position)
      (c.position + (Item.first d rest).source.length) c.nextClose) := by
  rw [step_reads hregions h, read_eq hstop h]
  simp only [hname, Bool.false_eq_true, ↓reduceIte]
  rfl

/-- Behind a name the region of its arguments is opened, if a closing parenthesis follows in the
region. -/
theorem step_first_name {d : Char} {rest : List Char} {p : Nat} (hregions : c.regions = stop :: outer)
    (hstop : stop ≤ s.length) (h : s.chars c.position stop = d :: rest)
    (hname : (Item.first d rest).isName = true)
    (hp : p = c.position + (Item.first d rest).source.length) (hremembered : Remembered s c) :
    step s c = some
      (if searchClose s p < stop then
        (c.goOn s ((Item.first d rest).findings c.position) p (some (searchClose s p))).within
          (searchClose s p :: stop :: outer)
      else c.goOn s ((Item.first d rest).findings c.position) p (some (searchClose s p))) := by
  subst hp
  have hlt := (chars_eq_cons h).1
  have hremembered' : Remembered s ((c.record s ((Item.first d rest).findings c.position)).moveTo
      (c.position + (Item.first d rest).source.length)) :=
    hremembered.of_le (by omega) rfl (Nat.le_add_right _ _)
  have hregions' : ((c.record s ((Item.first d rest).findings c.position)).moveTo
      (c.position + (Item.first d rest).source.length)).regions = stop :: outer := hregions
  rw [step_reads hregions h, read_eq hstop h]
  simp only [hname, ↓reduceIte]
  exact congrArg some (openArguments_eq hregions' hremembered')

/-- The parenthesis that ends the arguments is produced, and the cursor goes over it. -/
theorem step_close (hregions : c.regions = stop :: outer) {found : Findings} {close : Nat}
    {f : Option Nat} :
    step s ((c.goOn s found close f).within (close :: stop :: outer)) =
      some (c.goOn s (found ++ ⟨[bare .closeParenthesis], []⟩) (close + 1) f) := by
  rw [step_leaves rfl (Nat.le_refl close), ← goOn_goOn s found _ close (close + 1) f f c, leave,
    emit_bare s]
  simp [within, goOn, Config.moveTo, record, hregions]

/-! ## A whole region -/

/-- Steps lead from the configuration to the end of the region, and what they add is what the nested
scan finds in the rest of the region's text. -/
def ScansTo (s : Source) (stop : Nat) (c : Config) : Prop :=
  ∃ f, Remembered s (c.goOn s (nested c.position (s.chars c.position stop)) stop f) ∧
    Reaches s c (c.goOn s (nested c.position (s.chars c.position stop)) stop f)

/-- What is found on the way goes in front of what is found from there. -/
theorem ScansTo.of_reaches {found : Findings} {p : Nat} {f : Option Nat}
    (hreaches : Reaches s c (c.goOn s found p f))
    (hfound : nested c.position (s.chars c.position stop) =
      found ++ nested p (s.chars p stop))
    (h : ScansTo s stop (c.goOn s found p f)) : ScansTo s stop c := by
  obtain ⟨g, hremembered, hlast⟩ := h
  refine ⟨g, ?_⟩
  rw [hfound, ← goOn_goOn s found _ p stop f g c]
  exact ⟨hremembered, hreaches.trans hlast⟩

/-- A region of arguments is scanned to its end, the parenthesis there is gone over, and the scan of
the region around it goes on. -/
theorem ScansTo.of_arguments {found : Findings} {p close : Nat} {f : Option Nat}
    (hregions : c.regions = stop :: outer)
    (hopens : step s c = some ((c.goOn s found p f).within (close :: stop :: outer)))
    (hclose : close ≤ s.length)
    (harguments : ScansTo s close ((c.goOn s found p f).within (close :: stop :: outer)))
    (hfound : nested c.position (s.chars c.position stop) =
      found ++ nested p (s.chars p close) ++ ⟨[bare .closeParenthesis], []⟩ ++
        nested (close + 1) (s.chars (close + 1) stop))
    (hfollowing : ∀ found g, Remembered s (c.goOn s found (close + 1) g) →
      ScansTo s stop (c.goOn s found (close + 1) g)) : ScansTo s stop c := by
  obtain ⟨g, hremembered, hreaches⟩ := harguments
  rw [goOn_within, goOn_goOn] at hremembered hreaches
  have hcloses : Reaches s c (c.goOn s (found ++ nested p (s.chars p close) ++
      ⟨[bare .closeParenthesis], []⟩) (close + 1) g) :=
    .head hopens (.tail hreaches (step_close hregions))
  refine ScansTo.of_reaches hcloses hfound (hfollowing _ g ?_)
  exact hremembered.of_le hclose rfl (Nat.le_succ close)

/-- The machine scans every region to its end as the nested scan does. -/
theorem scansTo (hregions : c.regions = stop :: outer) (hposition : c.position ≤ stop)
    (hstop : stop ≤ s.length) (hremembered : Remembered s c) : ScansTo s stop c := by
  -- By what is left of the region; a region that is opened inside has less left than this one.
  induction hn : stop - c.position using Nat.strong_induction_on generalizing c stop outer with
  | _ n ih =>
    have hlength := length_chars s c.position hstop
    cases hchars : s.chars c.position stop with
    | nil =>
      rw [hchars, List.length_nil] at hlength
      have hend : c.position = stop := by omega
      have hsame : c.goOn s ⟨[], []⟩ c.position c.nextClose = c := record_none s c
      refine ⟨c.nextClose, ?_⟩
      rw [hchars, nested_nil, ← hend, Findings.none, hsame]
      exact ⟨hremembered, .refl⟩
    | cons d rest =>
      rw [hchars, List.length_cons] at hlength
      obtain ⟨p, hp⟩ : ∃ p, p = c.position + (Item.first d rest).source.length := ⟨_, rfl⟩
      have hbehind : s.chars p stop = Item.behind d rest := by
        rw [hp, ← drop_chars, hchars, Item.drop_source_first]
      have hfound := nested_cons c.position d rest
      rw [← hchars, ← hp, ← hbehind] at hfound
      have hone := Item.one_le_length_source_first d rest
      have hsource := Item.length_behind d rest
      cases hname : (Item.first d rest).isName with
      | false =>
        have hstep := step_first hregions hstop hchars hname
        rw [hname, if_neg Bool.false_ne_true] at hfound
        rw [← hp] at hstep
        refine ScansTo.of_reaches (.tail .refl hstep) hfound ?_
        refine ih (stop - p) (by omega) hregions (by rw [position_goOn]; omega) hstop ?_ rfl
        exact hremembered.of_le (by omega) rfl (by rw [position_goOn]; omega)
      | true =>
        have hstep := step_first_name hregions hstop hchars hname hp hremembered
        rw [hname, if_pos rfl] at hfound
        have hnext : ∀ found, Remembered s (c.goOn s found p (some (searchClose s p))) := by
          intro found close hclose _
          exact (Option.some.inj hclose).symm
        -- The machine searches the whole source; its find is in the region if the region has one.
        by_cases hmem : ')' ∈ s.chars p stop
        · obtain ⟨arguments, following, hcut, hnot⟩ := List.eq_append_cons_of_mem hmem
          obtain ⟨hclose, hlt, harguments, hfollowing⟩ :=
            searchClose_of_cut (by omega) hstop hnot hcut
          rw [if_pos hlt] at hstep
          refine ScansTo.of_arguments hregions hstep (by omega) ?_ ?_ ?_
          · exact ih (searchClose s p - p) (by omega) rfl (le_searchClose s p) (by omega)
              (hnext ((Item.first d rest).findings c.position)) rfl
          · rw [hfound, hcut, nestedArguments_append hnot, harguments, hfollowing, hclose,
              ← Findings.append_assoc, ← Findings.append_assoc]
          · intro found g hremembered'
            exact ih (stop - (searchClose s p + 1)) (by omega) hregions hlt hstop hremembered' rfl
        · -- No region is opened, as the arguments go to the end of this one.
          have hge := le_searchClose_of_not_mem (by omega) hstop hmem
          rw [nestedArguments_of_not_mem hmem] at hfound
          rw [if_neg (by omega)] at hstep
          refine ScansTo.of_reaches (.tail .refl hstep) hfound ?_
          exact ih (stop - p) (by omega) hregions (by rw [position_goOn]; omega) hstop (hnext _) rfl

/-! ## A whole source -/

/-- The run of a source ends with what the nested scan finds in its text. -/
theorem ofSource_eq (s : Source) : ofSource s = ofSourceNested s := by
  have hremembered : Remembered s (Config.initial s) := by
    intro close hclose
    cases hclose
  obtain ⟨f, _, hreaches⟩ := scansTo (s := s) (c := Config.initial s) rfl (Nat.zero_le _)
    (Nat.le_refl _) hremembered
  have hleave := step_leaves (s := s) (c := (Config.initial s).goOn s
    (nested 0 (s.chars 0 s.length)) s.length f) rfl (Nat.le_refl _)
  have hhalted : step s (leave [] ((Config.initial s).goOn s
      (nested 0 (s.chars 0 s.length)) s.length f)) = none := step_eq_none_iff.2 rfl
  have hrun : run s (Config.initial s) = leave [] ((Config.initial s).goOn s
      (nested 0 (s.chars 0 s.length)) s.length f) :=
    (hreaches.run_eq.trans (run_of_step hleave)).trans (run_of_halted hhalted)
  rw [ofSource, hrun]
  simp [leave, emit, goOn, Config.moveTo, record, Config.initial, produced, ofSourceNested, placed,
    reported]

end ColumnFormula.Scan

namespace ColumnFormula

open Scan Text

/-- A scan of an expression reports what the nested scan finds in its text without the line
controls. -/
theorem tokenize_eq_reported (expression : String) (offset : Nat) :
    let found := nested 0 (strip expression.toList)
    tokenize expression offset =
      ⟨found.tokens.map (Token.relocate (reportedSpan expression.toList offset)) ++
          [Token.endOfInput],
        found.unexpected.map fun (c, position) =>
          ⟨c, expression, wrap (offset + sourceIndex expression.toList position)⟩⟩ := by
  intro found
  rw [tokenize, ofSource_eq, ofSourceNested, Source.chars_ofExpression]
  simp only [Source.span_ofExpression, Source.report_ofExpression]
  rfl

end ColumnFormula
