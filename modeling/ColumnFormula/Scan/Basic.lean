import ColumnFormula.Scan.Config

/-!
# Scanning an expression

`tokenize` runs a scan to its end and keeps what it produced.  The run is total because every step
makes `Config.measure` smaller: a character that is read moves the position by at least one, which
weighs two, and opens at most one region, which weighs one; leaving a region removes its weight.
-/

namespace ColumnFormula

namespace Scan

/-! ## Progress -/

theorem charBefore_eq_some {s : Source} {stop position : Nat} {ch : Char}
    (h : s.charBefore stop position = some ch) :
    position < stop ∧ position < s.length ∧ s.char? position = some ch := by
  unfold Source.charBefore at h
  split at h
  · refine ⟨‹_›, ?_, h⟩
    obtain ⟨mark, hmark, _⟩ := Option.map_eq_some_iff.1 h
    obtain ⟨hlt, _⟩ := Array.getElem?_eq_some_iff.1 hmark
    exact hlt
  · cases h

theorem holds_of_charBefore {s : Source} {stop position : Nat} {ch : Char} {p : Char → Bool}
    (h : s.charBefore stop position = some ch) (hp : p ch = true) : s.holds p position = true := by
  simp [Source.holds, (charBefore_eq_some h).2.2, hp]

theorem position_lt_readNumber {s : Source} {stop : Nat} {ch : Char} {c : Config}
    (h : s.charBefore stop c.position = some ch) (hd : ch.isDigit = true) :
    c.position < (readNumber s stop c).position := by
  refine Text.lt_runEnd (charBefore_eq_some h).1 ?_
  simp [inNumber, holds_of_charBefore h hd]

theorem position_lt_readBracket (s : Source) (stop : Nat) (c : Config) :
    c.position < (readBracket s stop c).position := by
  have := Text.le_runEnd (s.holds (· != ']')) (c.position + 1) stop
  simp only [readBracket, Config.emit, Config.moveTo]
  repeat' split
  all_goals simp only; omega

theorem position_lt_readString (s : Source) (stop : Nat) (quote : Char) (c : Config) :
    c.position < (readString s stop quote c).position := by
  have := Text.le_runEnd (s.holds (· != quote)) (c.position + 1) stop
  simp only [readString, Config.emit, Config.moveTo]
  split <;> simp only <;> omega

theorem position_lt_readName {s : Source} {stop : Nat} {ch : Char} {c : Config}
    (h : s.charBefore stop c.position = some ch) (hn : isNameChar ch = true) :
    c.position < (readName s stop c).position := by
  have := Text.lt_runEnd (charBefore_eq_some h).1 (holds_of_charBefore h hn)
  simp only [readName, Config.emit, Config.moveTo]
  split <;> simp only <;> omega

@[simp] theorem regions_readNumber (s : Source) (stop : Nat) (c : Config) :
    (readNumber s stop c).regions = c.regions := rfl

@[simp] theorem regions_readBracket (s : Source) (stop : Nat) (c : Config) :
    (readBracket s stop c).regions = c.regions := by
  simp only [readBracket, Config.emit, Config.moveTo]
  repeat' split
  all_goals rfl

@[simp] theorem regions_readString (s : Source) (stop : Nat) (quote : Char) (c : Config) :
    (readString s stop quote c).regions = c.regions := by
  simp only [readString, Config.emit, Config.moveTo]
  split <;> rfl

@[simp] theorem regions_readName (s : Source) (stop : Nat) (c : Config) :
    (readName s stop c).regions = c.regions := by
  simp only [readName, Config.emit, Config.moveTo]
  split <;> rfl

/-- Reading moves on and opens at most one region. -/
theorem read_progress {s : Source} {stop : Nat} {ch : Char} {c : Config}
    (h : s.charBefore stop c.position = some ch) :
    c.position < (read s stop ch c).position ∧
      (read s stop ch c).regions.length ≤ c.regions.length + 1 := by
  unfold read
  split
  case h_6 hr =>
    exact ⟨position_lt_readNumber h (Role.of_eq_digit_iff.1 hr), Nat.le_succ _⟩
  case h_7 => exact ⟨position_lt_readBracket s stop c, by simp⟩
  case h_8 => exact ⟨position_lt_readString s stop ch c, by simp⟩
  case h_9 hr =>
    refine ⟨position_lt_readName h (Role.of_eq_name_iff.1 hr).1, ?_⟩
    simp only [openArguments]
    split <;> simp
  case h_10 => exact ⟨(charBefore_eq_some h).1, Nat.le_succ _⟩
  all_goals exact ⟨Nat.lt_succ_self _, Nat.le_succ _⟩

/-- What is left to do: two for every character to come and one for every open region. -/
def Config.measure (s : Source) (c : Config) : Nat :=
  2 * (s.length - c.position) + c.regions.length

theorem measure_advance {s : Source} {stop : Nat} {outer : List Nat} {c : Config}
    (h : c.regions = stop :: outer) : (advance s stop outer c).measure s < c.measure s := by
  unfold advance
  split
  · rename_i ch hch
    obtain ⟨hpos, hlen⟩ := read_progress hch
    have := (charBefore_eq_some hch).2.1
    simp only [Config.measure]
    omega
  · unfold leave
    split
    · simp [Config.measure, Config.emit, h]
    · simp only [Config.measure, Config.emit, Config.moveTo, h, List.length_cons]
      omega

/-! ## Runs -/

/-- Steps until no region is open. -/
def run (s : Source) (c : Config) : Config :=
  match _h : c.regions with
  | [] => c
  | stop :: outer => run s (advance s stop outer c)
termination_by c.measure s
decreasing_by exact measure_advance _h

theorem step_eq_none_iff {s : Source} {c : Config} : step s c = none ↔ c.regions = [] := by
  unfold step
  split <;> simp [*]

/-- A run does what its first step does and goes on from there. -/
theorem run_of_step {s : Source} {c next : Config} (h : step s c = some next) :
    run s c = run s next := by
  unfold step at h
  rw [run]
  split <;> simp_all

theorem run_of_halted {s : Source} {c : Config} (h : step s c = none) : run s c = c := by
  rw [run]
  split <;> simp_all [step_eq_none_iff]

/-- A run ends where no step can be made. -/
theorem step_run (s : Source) (c : Config) : step s (run s c) = none := by
  fun_induction run s c with
  | case1 c h => exact step_eq_none_iff.2 h
  | case2 c stop outer h ih => exact ih

end Scan

/-! ## The result -/

/-- What a scan of an expression produces: its tokens, and a diagnostic for everything dropped
because of an unexpected character. -/
structure Scan where
  tokens : List Token
  diagnostics : List Diagnostic
  deriving DecidableEq, Repr

namespace Scan

/-- What a configuration has produced. -/
def Config.produced (c : Config) : Scan :=
  ⟨c.tokens.toList, c.diagnostics.toList⟩

/-- Scans a source to its end. -/
def ofSource (s : Source) : Scan :=
  (run s (Config.initial s)).produced

end Scan

/-- Scans an expression.  Every position that is reported is counted in the expression as written,
line controls included, and raised by `offset`. -/
def tokenize (expression : String) (offset : Nat) : Scan :=
  Scan.ofSource (Source.ofExpression expression offset)

end ColumnFormula
