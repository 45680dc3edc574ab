import ColumnFormula.Proofs.Scan.Item

/-!
# What the machine reads

One step of the machine inside a region reads the first item of what is left of the region: it
records what is in the item, with the places the source gives to positions, and moves behind the
item's source (`read_eq`).  Only behind a name there is more to it, for there the machine looks for
the parenthesis that ends the arguments.
-/

namespace ColumnFormula.Scan

open Source Text Token

variable {s : Source} {stop : Nat} {c : Config}

/-! ## Recording what is found -/

/-- Tokens of a scan of the characters, moved to the places of the source. -/
def placed (s : Source) (tokens : List Token) : List Token :=
  tokens.map (relocate fun span => s.span span.start span.stop)

/-- The diagnostics for unexpected characters, at the places of the source. -/
def reported (s : Source) (unexpected : List (Char × Nat)) : List Diagnostic :=
  unexpected.map fun (c, position) => ⟨c, s.expression, s.report position⟩

namespace Config

/-- The configuration with findings added to what it has produced. -/
def record (s : Source) (found : Findings) (c : Config) : Config :=
  { c with
    tokens := c.tokens ++ (placed s found.tokens).toArray
    diagnostics := c.diagnostics ++ (reported s found.unexpected).toArray }

theorem record_none (s : Source) (c : Config) : c.record s ⟨[], []⟩ = c := by
  simp [record, placed, reported]

theorem record_record (s : Source) (a b : Findings) (c : Config) :
    (c.record s a).record s b = c.record s (a ++ b) := by
  simp [record, placed, reported]

theorem record_moveTo (s : Source) (found : Findings) (position : Nat) (c : Config) :
    (c.moveTo position).record s found = (c.record s found).moveTo position := rfl

@[simp] theorem moveTo_moveTo (first second : Nat) (c : Config) :
    (c.moveTo first).moveTo second = c.moveTo second := rfl

theorem emit_bare (s : Source) (kind : Kind) (c : Config) :
    c.emit (.bare kind) = c.record s ⟨[.bare kind], []⟩ := by
  simp [emit, record, placed, reported, relocate]

theorem emit_ofText (s : Source) (kind : Kind) (text : String) (c : Config) :
    c.emit (.ofText kind text) = c.record s ⟨[.ofText kind text], []⟩ := by
  simp [emit, record, placed, reported, relocate]

theorem emit_ofColumn (s : Source) (column : ColumnRef) (start stop : Nat) (c : Config) :
    c.emit (.ofColumn column (s.span start stop)) =
      c.record s ⟨[.ofColumn column ⟨start, stop⟩], []⟩ := by
  simp [emit, record, placed, reported, relocate]
  rfl

theorem emit_ofFunction (s : Source) (name : String) (start stop : Nat) (c : Config) :
    c.emit (.ofFunction name (s.span start stop)) =
      c.record s ⟨[.ofFunction name ⟨start, stop⟩], []⟩ := by
  simp [emit, record, placed, reported, relocate]
  rfl

end Config

open Config

/-! ## The readers -/

theorem readNumber_eq {d : Char} {rest : List Char} (h : s.chars c.position stop = d :: rest)
    (hd : d.isDigit = true) :
    readNumber s stop c =
      (c.record s ((Item.number (d :: numberTail rest)).findings c.position)).moveTo
        (c.position + (d :: numberTail rest).length) := by
  have htail : numberTail (s.chars c.position stop) = d :: numberTail rest := by
    rw [h, numberTail, if_pos hd]
  have htext : s.chars c.position (c.position + (d :: numberTail rest).length) =
      d :: numberTail rest :=
    chars_of_isPrefix (htail ▸ prefix_numberTail _)
  rw [readNumber, runEnd_inNumber, htail, Source.text, htext, emit_ofText s]
  rfl

/-- How far a movement up to a character goes, what it goes over, and whether it finds the character
inside the region. -/
theorem runEnd_bne {start : Nat} {rest : List Char} (h : s.chars start stop = rest) (d : Char) :
    runEnd (s.holds (· != d)) start stop = start + (rest.takeWhile (· != d)).length ∧
      s.chars start (start + (rest.takeWhile (· != d)).length) = rest.takeWhile (· != d) ∧
      (s.charBefore stop (start + (rest.takeWhile (· != d)).length) = some d ↔ d ∈ rest) := by
  subst h
  refine ⟨runEnd_holds_eq s _ start stop, chars_of_isPrefix (List.takeWhile_prefix _), ?_⟩
  rw [charBefore_eq_head?, ← drop_chars]
  exact head?_drop_takeWhile_bne

theorem readBracket_eq {d : Char} {rest : List Char} (h : s.chars c.position stop = d :: rest) :
    readBracket s stop c =
      (c.record s ((Item.ofRole d rest .bracket).findings c.position)).moveTo
        (c.position + (Item.ofRole d rest .bracket).source.length) := by
  obtain ⟨hpast, htext, hclosed⟩ := runEnd_bne (chars_eq_cons h).2.2 ']'
  simp only [readBracket, hpast, Source.text, htext, hclosed, ColumnRef.ofText, String.toList_ofList,
    Item.ofRole, List.contains_eq_mem]
  generalize rest.takeWhile (· != ']') = inner
  have hfilled : c.position + 1 < c.position + 1 + inner.length ↔ inner ≠ [] := by
    rw [← List.length_pos_iff]
    omega
  have hend : c.position + 1 + inner.length = c.position + (inner.length + 1) := by omega
  have hclose : c.position + (inner.length + 1) + 1 = c.position + (inner.length + 1 + 1) := rfl
  simp only [hfilled]
  by_cases hmem : ']' ∈ rest <;> by_cases hinner : inner = [] <;>
    simp [hmem, hinner, emit_bare s, emit_ofColumn s, record_moveTo, record_record,
      Findings.mk_append_mk, Item.findings, Item.tokens, Item.unexpected, Item.source, hend, hclose]

theorem readString_eq {d : Char} {rest : List Char} (h : s.chars c.position stop = d :: rest) :
    readString s stop d c =
      (c.record s ((Item.ofRole d rest .quote).findings c.position)).moveTo
        (c.position + (Item.ofRole d rest .quote).source.length) := by
  obtain ⟨hpast, htext, hclosed⟩ := runEnd_bne (chars_eq_cons h).2.2 d
  have hend : ∀ n, c.position + 1 + n = c.position + (n + 1) := fun n => by omega
  simp only [readString, hpast, Source.text, htext, hclosed, Item.ofRole]
  by_cases hmem : d ∈ rest
  · simp [hmem, emit_ofText s, Item.findings, Item.tokens, Item.unexpected, Item.source, hend,
      Nat.add_assoc]
  · have hnone := record_none s c
    simp [hmem, takeWhile_bne_of_not_mem hmem, Item.findings, Item.tokens, Item.unexpected,
      Item.source, hend, hnone]

theorem readName_eq {d : Char} {rest : List Char} (h : s.chars c.position stop = d :: rest)
    (hd : isNameChar d = true) :
    readName s stop c =
      (c.record s ((Item.ofRole d rest .name).findings c.position)).moveTo
        (c.position + (Item.ofRole d rest .name).source.length) := by
  have hmore : (d :: rest).takeWhile isNameChar = d :: rest.takeWhile isNameChar :=
    List.takeWhile_cons_of_pos hd
  have hpast : runEnd (s.holds isNameChar) c.position stop =
      c.position + (d :: rest.takeWhile isNameChar).length := by
    rw [runEnd_holds_eq, h, hmore]
  have htext : s.chars c.position (c.position + (d :: rest.takeWhile isNameChar).length) =
      d :: rest.takeWhile isNameChar := by
    apply chars_of_isPrefix
    rw [h, ← hmore]
    exact List.takeWhile_prefix _
  have hcall : s.charBefore stop (c.position + (d :: rest.takeWhile isNameChar).length) =
      (rest.drop (rest.takeWhile isNameChar).length).head? := by
    rw [charBefore_eq_head?, ← drop_chars, h]
    rfl
  simp only [readName, hpast, Source.text, htext, hcall, Item.ofRole]
  generalize rest.takeWhile isNameChar = more
  by_cases hopen : (rest.drop more.length).head? = some '('
  · simp only [hopen]
    simp [emit_ofFunction s, emit_bare s, record_moveTo, record_record, Findings.mk_append_mk,
      Item.findings, Item.tokens, Item.unexpected, Item.source]
    rfl
  · have hbeq : ((rest.drop more.length).head? == some '(') = false := beq_eq_false_iff_ne.2 hopen
    simp only [hopen, hbeq]
    simp [emit_ofFunction s, Item.findings, Item.tokens, Item.unexpected, Item.source]

/-- A step inside a region reads the first item of what is left of it. -/
theorem read_eq {d : Char} {rest : List Char} (hstop : stop ≤ s.length)
    (h : s.chars c.position stop = d :: rest) :
    read s stop d c =
      let it := Item.first d rest
      let next := (c.record s (it.findings c.position)).moveTo (c.position + it.source.length)
      if it.isName then openArguments s stop next else next := by
  rw [read, Item.first]
  cases hrole : Role.of d with
  | blank =>
    have hnone : c.record s ((Item.blank d).findings c.position) = c := record_none s c
    show c.moveTo (c.position + 1) =
      (c.record s ((Item.blank d).findings c.position)).moveTo (c.position + 1)
    rw [hnone]
  | operator kind =>
    show (c.emit _).moveTo _ = _
    rw [emit_ofText s]
    rfl
  | closing =>
    show (c.emit _).moveTo _ = _
    rw [emit_bare s]
    rfl
  | opening =>
    show (c.emit _).moveTo _ = _
    rw [emit_bare s]
    rfl
  | separator =>
    show (c.emit _).moveTo _ = _
    rw [emit_ofText s]
    rfl
  | digit => exact readNumber_eq h (Role.of_eq_digit_iff.1 hrole)
  | bracket => exact readBracket_eq h
  | quote =>
    show readString s stop d c = _
    rw [readString_eq h, Item.ofRole]
    split <;> rfl
  | name =>
    show openArguments s stop (readName s stop c) = _
    rw [readName_eq h (Role.of_eq_name_iff.1 hrole).1]
    rfl
  | unexpected =>
    -- The rest of the region is in the item, so the machine moves behind the item's source.
    have hend : stop = c.position + (d :: rest).length := by
      have hlen := length_chars s c.position hstop
      have hlt := (chars_eq_cons h).1
      rw [h] at hlen
      omega
    show abandon s stop d c = _
    rw [abandon, hend]
    simp [Item.ofRole, Item.findings, Item.tokens, Item.unexpected, Item.source, Item.isName,
      record, placed, reported, Config.moveTo]

end ColumnFormula.Scan
