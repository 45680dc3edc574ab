import ColumnFormula.Proofs.Scan.Join
import ColumnFormula.Proofs.Scan.Reached

/-!
# Edits that move a scan

An edit replaces one stretch of an expression.  If nothing that is found stands in the stretch, and the
items around it stay what they are, then the scan of the edited expression is the scan of the
expression, with what stands behind the stretch moved by the difference in length (`Edit.Moves`).
There are two such edits: a blank put in where the scan is about to read a character, and any text
without a closing parenthesis in the place of what an unexpected character takes with it.
-/

namespace ColumnFormula

/-- A stretch of a text, and what is put in its place. -/
structure Edit where
  start : Nat
  stop : Nat
  text : List Char
  deriving DecidableEq, Repr

namespace Edit

/-- The expression with the stretch replaced. -/
def apply (e : Edit) (expression : String) : String :=
  String.ofList (expression.toList.take e.start ++ e.text ++ expression.toList.drop e.stop)

/-- The same edit in a text with `n` more characters in front. -/
def raise (n : Nat) (e : Edit) : Edit :=
  ⟨n + e.start, n + e.stop, e.text⟩

/-- Where a position that is not in the stretch comes to stand. -/
def position (e : Edit) (p : Nat) : Nat :=
  if p < e.start then p else e.start + e.text.length + (p - e.stop)

/-- Where a span that does not reach into the stretch comes to stand. -/
def span (e : Edit) (span : Span) : Span :=
  if span.stop ≤ e.start then span else ⟨e.position span.start, e.position span.stop⟩

theorem length_apply (e : Edit) (expression : String) :
    (e.apply expression).length =
      min e.start expression.length + e.text.length + (expression.length - e.stop) := by
  rw [apply, String.length_ofList, List.length_append, List.length_append, List.length_take,
    List.length_drop, String.length_toList]

theorem position_add {e : Edit} (h : e.start ≤ e.stop) (n : Nat) :
    e.position (e.stop + n) = e.start + e.text.length + n := by
  rw [position, if_neg (by omega), Nat.add_sub_cancel_left]

theorem span_add {e : Edit} (h : e.start ≤ e.stop) (m n : Nat) :
    e.span ⟨e.stop + m, e.stop + n + 1⟩ =
      ⟨e.start + e.text.length + m, e.start + e.text.length + n + 1⟩ := by
  have hbehind : ¬ e.stop + n + 1 ≤ e.start := by omega
  rw [span, if_neg hbehind]
  show (⟨e.position (e.stop + m), e.position (e.stop + (n + 1))⟩ : Span) = _
  rw [position_add h, position_add h]
  rfl

/-- The scan of the edited expression has the same tokens and warnings in the same order.  Each of
them stands in front of the stretch and is where it was, or stands behind it and is moved by the
difference in length. -/
structure Moves (e : Edit) (edited : String) (before after : Scan) : Prop where
  tokens : after.tokens = before.tokens.map (Token.relocate e.span)
  diagnostics : after.diagnostics =
    before.diagnostics.map fun d => ⟨d.character, edited, e.position d.position⟩
  span_apart : ∀ token ∈ before.tokens, ∀ span, token.span? = some span →
    span.stop ≤ e.start ∨ e.stop ≤ span.start
  position_apart : ∀ d ∈ before.diagnostics, d.position < e.start ∨ e.stop ≤ d.position

end Edit

namespace Scan

open Source Text Token

/-! ## Where the parts of a scan stand -/

namespace Findings

variable {found : Findings} {text : List Char}

/-- What is found in a text stands in it. -/
theorem place_stop_le (h : found.Within (strip text).length) (offset : Nat) :
    (∀ token ∈ (found.place text offset).tokens, ∀ span, token.span? = some span →
      span.stop ≤ offset + text.length) ∧
    ∀ m ∈ (found.place text offset).unexpected, m.2 < offset + text.length := by
  constructor
  · intro token htoken span hspan
    obtain ⟨token, hmem, rfl⟩ := List.mem_map.1 htoken
    rw [span?_relocate, Option.map_eq_some_iff] at hspan
    obtain ⟨span, hspan, rfl⟩ := hspan
    obtain ⟨hlt, hle⟩ := h.1 token hmem span hspan
    have hindex : sourceIndex text (span.stop - 1) < text.length := sourceIndex_lt (by omega)
    show offset + sourceIndex text (span.stop - 1) + 1 ≤ _
    omega
  · intro m hm
    obtain ⟨m, hmem, rfl⟩ := List.mem_map.1 hm
    have hindex := sourceIndex_lt (h.2 m hmem)
    show offset + sourceIndex text m.2 < _
    omega

theorem le_place_start (found : Findings) (text : List Char) (offset : Nat) :
    (∀ token ∈ (found.place text offset).tokens, ∀ span, token.span? = some span →
      offset ≤ span.start) ∧
    ∀ m ∈ (found.place text offset).unexpected, offset ≤ m.2 := by
  constructor
  · intro token htoken span hspan
    obtain ⟨token, hmem, rfl⟩ := List.mem_map.1 htoken
    rw [span?_relocate, Option.map_eq_some_iff] at hspan
    obtain ⟨span, _, rfl⟩ := hspan
    exact Nat.le_add_right _ _
  · intro m hm
    obtain ⟨m, _, rfl⟩ := List.mem_map.1 hm
    exact Nat.le_add_right _ _

/-- The findings with what stands behind the stretch of an edit moved. -/
def move (e : Edit) (found : Findings) : Findings :=
  ⟨found.tokens.map (relocate e.span), found.unexpected.map fun m => (m.1, e.position m.2)⟩

theorem move_append (e : Edit) (a b : Findings) : (a ++ b).move e = a.move e ++ b.move e := by
  simp only [move, tokens_append, unexpected_append, List.map_append]
  rfl

/-- Nothing is in the stretch of the edit. -/
def Apart (e : Edit) (found : Findings) : Prop :=
  (∀ token ∈ found.tokens, ∀ span, token.span? = some span →
    span.stop ≤ e.start ∨ e.stop ≤ span.start) ∧
  ∀ m ∈ found.unexpected, m.2 < e.start ∨ e.stop ≤ m.2

theorem Apart.append {e : Edit} {a b : Findings} (ha : a.Apart e) (hb : b.Apart e) :
    (a ++ b).Apart e := by
  constructor
  · intro token htoken
    rcases List.mem_append.1 htoken with h | h
    · exact ha.1 token h
    · exact hb.1 token h
  · intro m hm
    rcases List.mem_append.1 hm with h | h
    · exact ha.2 m h
    · exact hb.2 m h

theorem Apart.moves {e : Edit} (h : found.Apart e) (expression edited : String) :
    e.Moves edited (found.toScan expression) ((found.move e).toScan edited) where
  tokens := by
    show _ = (found.tokens ++ [endOfInput]).map _
    rw [List.map_append]
    rfl
  diagnostics := by simp [toScan, move]
  span_apart := by
    intro token htoken span hspan
    rcases List.mem_append.1 htoken with hmem | hmem
    · exact h.1 token hmem span hspan
    · rw [List.mem_singleton.1 hmem] at hspan
      cases hspan
  position_apart := by
    intro d hd
    obtain ⟨m, hm, rfl⟩ := List.mem_map.1 hd
    exact h.2 m hm

variable {front stretch back : List Char} {a b : Findings}

theorem apart_front {e : Edit} {offset : Nat} (h : found.Within (strip text).length)
    (he : e.start = offset + text.length) : (found.place text offset).Apart e := by
  obtain ⟨hspan, hposition⟩ := place_stop_le h offset
  rw [Apart, he]
  exact ⟨fun token htoken span h => Or.inl (hspan token htoken span h),
    fun m hm => Or.inl (hposition m hm)⟩

theorem apart_back (e : Edit) (found : Findings) (text : List Char) :
    (found.place text e.stop).Apart e := by
  obtain ⟨hspan, hposition⟩ := le_place_start found text e.stop
  exact ⟨fun token htoken span h => Or.inr (hspan token htoken span h),
    fun m hm => Or.inr (hposition m hm)⟩

/-- What is found in front of the stretch stays where it is. -/
theorem move_front {e : Edit} {offset : Nat} (h : found.Within (strip text).length)
    (he : e.start = offset + text.length) :
    (found.place text offset).move e = found.place text offset := by
  obtain ⟨hspan, hposition⟩ := place_stop_le h offset
  rw [← he] at hspan hposition
  ext1
  · refine (List.map_congr_left fun token htoken => ?_).trans (List.map_id' _)
    exact relocate_eq_self fun span h => if_pos (hspan token htoken span h)
  · refine (List.map_congr_left fun m hm => ?_).trans (List.map_id' _)
    show (m.1, e.position m.2) = m
    rw [Edit.position, if_pos (hposition m hm)]

/-- What is found behind the stretch comes to stand behind the new text. -/
theorem move_back {e : Edit} (he : e.start ≤ e.stop) (found : Findings) (text : List Char) :
    (found.place text e.stop).move e = found.place text (e.start + e.text.length) := by
  simp only [move, place, List.map_map, mk.injEq]
  constructor
  · apply List.map_congr_left
    intro token _
    show (token.relocate _).relocate _ = _
    rw [relocate_relocate]
    apply relocate_congr
    exact fun span _ => Edit.span_add he _ _
  · apply List.map_congr_left
    intro m _
    show (m.1, e.position (e.stop + _)) = _
    rw [Edit.position_add he]

/-- What is found in the two parts of a text around a stretch stands where it stands in them. -/
theorem place_around (ha : a.Within (strip front).length) (hb : b.Within (strip back).length)
    (stretch : List Char) (offset : Nat) :
    (a ++ b.raise (strip (front ++ stretch)).length).place (front ++ stretch ++ back) offset =
      a.place front offset ++ b.place back (offset + (front.length + stretch.length)) := by
  rw [place_append, place_append_right hb, List.append_assoc, place_append_left ha,
    List.length_append]

end Findings

variable {front stretch back text : List Char} {a b : Findings}

/-- If the same is found around a stretch and around the text that is put in its place, then the edit
moves the scan, as long as words hold all positions before and after. -/
theorem moves_of_findings {expression : String}
    (hexpression : expression.toList = front ++ stretch ++ back)
    (ha : a.Within (strip front).length) (hb : b.Within (strip back).length)
    (hbefore : findingsOf 0 (items false (strip (front ++ stretch ++ back))) =
      a ++ b.raise (strip (front ++ stretch)).length)
    (hafter : findingsOf 0 (items false (strip (front ++ text ++ back))) =
      a ++ b.raise (strip (front ++ text)).length) {offset : Nat}
    (hfits : offset + expression.length < positionLimit)
    (hmoved : offset + (Edit.apply ⟨front.length, front.length + stretch.length, text⟩
      expression).length < positionLimit) :
    let e : Edit := ⟨front.length, front.length + stretch.length, text⟩
    (e.raise offset).Moves (e.apply expression) (tokenize expression offset)
      (tokenize (e.apply expression) offset) := by
  intro e
  have hedited : (e.apply expression).toList = front ++ text ++ back := by
    rw [Edit.apply, String.toList_ofList, hexpression]
    show (front ++ stretch ++ back).take front.length ++ text ++
      (front ++ stretch ++ back).drop (front.length + stretch.length) = _
    rw [List.append_assoc front, List.take_left, ← List.append_assoc front, ← List.length_append,
      List.drop_left]
  have hle : (e.raise offset).start ≤ (e.raise offset).stop :=
    Nat.add_le_add_left (Nat.le_add_right front.length stretch.length) offset
  have hstart : (e.raise offset).start + (e.raise offset).text.length =
      offset + (front.length + text.length) := Nat.add_assoc offset front.length text.length
  have hin : (e.raise offset).start = offset + front.length := rfl
  have hapart := (Findings.apart_front ha hin).append (Findings.apart_back (e.raise offset) b back)
  have hmoves := hapart.moves expression (e.apply expression)
  rw [Findings.move_append, Findings.move_front ha hin, Findings.move_back hle, hstart] at hmoves
  rw [tokenize_eq_toScan_of_lt hfits, tokenize_eq_toScan_of_lt hmoved, hexpression, hedited, hbefore,
    hafter, Findings.place_around ha hb, Findings.place_around ha hb]
  exact hmoves

/-! ## The first items of a text -/

theorem Item.stop_le_of_mem_tokens {base : Nat} {it : Item} {token : Token} {span : Span}
    (h : token ∈ it.tokens base) (hspan : token.span? = some span) :
    span.stop ≤ base + it.source.length := by
  cases it with
  | bracket inner closed =>
    have hcolumn : span = ⟨base + 1, base + 1 + inner.length⟩ := by
      rw [tokens, List.mem_append, List.mem_cons] at h
      rcases h with (rfl | h) | h
      · cases hspan
      · split at h
        · cases h
        · rw [List.mem_singleton.1 h] at hspan
          exact (Option.some.inj hspan).symm
      · split at h
        · rw [List.mem_singleton.1 h] at hspan
          cases hspan
        · cases h
    rw [hcolumn]
    simp only [source, List.length_append, List.length_cons]
    omega
  | name text call =>
    have hfunction : span = ⟨base, base + text.length⟩ := by
      rcases List.mem_cons.1 h with rfl | h
      · exact (Option.some.inj hspan).symm
      · split at h
        · rw [List.mem_singleton.1 h] at hspan
          cases hspan
        · cases h
    rw [hfunction, source, List.length_append, ← Nat.add_assoc]
    exact Nat.le_add_right _ _
  | blank c => cases h
  | unclosed quote rest => cases h
  | dropped c rest => cases h
  | _ =>
    rw [List.mem_singleton.1 h] at hspan
    cases hspan

theorem stop_le_of_mem_findingsOf {base : Nat} {its : List Item} {token : Token} {span : Span}
    (h : token ∈ (findingsOf base its).tokens) (hspan : token.span? = some span) :
    span.stop ≤ base + (its.flatMap Item.source).length := by
  induction its generalizing base with
  | nil => exact absurd h List.not_mem_nil
  | cons it rest ih =>
    rw [findingsOf, Findings.tokens_append, List.mem_append] at h
    rw [List.flatMap_cons, List.length_append]
    rcases h with h | h
    · have hle := Item.stop_le_of_mem_tokens h hspan
      omega
    · have hle := ih h
      omega

/-- What is found in the first items of a text stands in them. -/
theorem within_findingsOf_front {inside : Bool} {text : List Char} {front back : List Item}
    (h : items inside text = front ++ back) :
    (findingsOf 0 front).Within (front.flatMap Item.source).length := by
  constructor
  · intro token htoken span hspan
    have hmem : token ∈ (findingsOf 0 (items inside text)).tokens := by
      rw [h, findingsOf_append]
      exact List.mem_append_left _ htoken
    have hle := stop_le_of_mem_findingsOf htoken hspan
    rw [Nat.zero_add] at hle
    exact ⟨(span_of_mem_tokens hmem hspan).1, hle⟩
  · rintro ⟨c, position⟩ hm
    have hlt := lt_of_mem_unexpected hm
    rw [Nat.zero_add] at hlt
    exact hlt

theorem findingsOf_split (front back : List Item) :
    findingsOf 0 (front ++ back) =
      findingsOf 0 front ++ (findingsOf 0 back).raise (front.flatMap Item.source).length := by
  rw [findingsOf_append, Nat.add_comm, findingsOf_add]

/-! ## Expressions cut where a character is read -/

/-- The expression is cut where a configuration reads the character: some items are in front, and the
region goes on with the character and with what is in reach behind it. -/
structure CutAt (expression : String) (offset : Nat) (c : Config) (stop : Nat)
    (before : List Item) (front : List Char) (character : Char) (rest : List Char) : Prop where
  behind : c.Behind (ofExpression expression offset) before
  text_eq : expression.toList = front ++ character :: rest
  kept : isLineControl character = false
  length_eq : front.length = (ofExpression expression offset).place c.position
  source_eq : before.flatMap Item.source = strip front
  items_eq : items false (strip front ++ character :: strip rest) =
    before ++ items (carry false before) (character :: strip rest)
  unfinished : ¬ EndsRegion (carry false before) (character :: strip rest)
  region_eq : (ofExpression expression offset).chars c.position stop =
    character :: reach (carry false before) (strip rest)

variable {expression : String} {offset : Nat} {c : Config} {stop : Nat} {character : Char}

/-- Where a configuration reads a character, it cuts the expression. -/
theorem Reads.cutAt (h : Reads (ofExpression expression offset) c stop character) :
    ∃ before front rest, CutAt expression offset c stop before front character rest := by
  obtain ⟨before, more, hbehind, hchars⟩ := h.behind
  obtain ⟨_, hstop, _, hreach⟩ :=
    chars_openRegions hbehind.position_le (hbehind.head_regions h.region)
  obtain ⟨hlt, hcharacter, _⟩ := chars_eq_cons hchars
  have hposition := Nat.lt_of_lt_of_le hlt hstop
  have hall := chars_ofExpression expression offset
  have hlength : c.position < (strip expression.toList).length := by
    rw [← hall, length_chars _ 0 (Nat.le_refl _)]
    omega
  obtain ⟨front, d, rest, htext, hd, hplace, hfront⟩ := exists_split expression.toList hlength
  rw [← place_ofExpression expression offset] at hplace
  have hstrip : strip expression.toList = strip front ++ d :: strip rest := by
    rw [htext, strip_append, strip_cons_of_kept hd]
  have hleft : (ofExpression expression offset).chars c.position
      (ofExpression expression offset).length = d :: strip rest := by
    have hdrop := drop_chars (ofExpression expression offset) 0
      (ofExpression expression offset).length c.position
    have hlen : (strip front).length = c.position := by
      rw [hfront, List.length_take]
      omega
    rw [hall, hstrip, Nat.zero_add, ← hlen, List.drop_left, hlen] at hdrop
    exact hdrop.symm
  obtain rfl : character = d := by
    rw [chars_of_char? hcharacter hposition] at hleft
    exact (List.cons.inj hleft).1
  have hsource : before.flatMap Item.source = strip front := by
    have hjoin := chars_append (ofExpression expression offset) (Nat.zero_le _) hbehind.position_le
    rw [hall, hleft, hstrip] at hjoin
    rw [hbehind.source_eq]
    exact List.append_cancel_right hjoin
  have hitems := hbehind.items_eq
  rw [hall, hleft, hstrip] at hitems
  rw [hleft] at hreach
  have hunfinished : ¬ EndsRegion (carry false before) (character :: strip rest) := by
    intro hend
    rw [reach_eq_nil_iff.2 hend, hchars] at hreach
    cases hreach
  have hclose : ¬ (carry false before = true ∧ character = ')') := fun hclose =>
    hunfinished (Or.inr ⟨hclose.1, congrArg some hclose.2⟩)
  rw [reach_cons hclose] at hreach
  exact ⟨before, front, rest, hbehind, htext, hd, hplace, hsource, hitems, hunfinished, hreach⟩

/-- The items in front of a character that is read are still there if another text comes behind them,
and the blank or the character that it begins with goes on with none of them. -/
theorem CutAt.items_replace {before : List Item} {front rest more : List Char} {d : Char}
    (h : CutAt expression offset c stop before front character rest) (hname : isNameChar d = false)
    (hparen : d ≠ '(')
    (hnumber : ∀ text, before.getLast? = some (.number text) → numberTail (d :: more) = []) :
    items false (strip front ++ d :: more) = before ++ items (carry false before) (d :: more) := by
  have hitems := h.items_eq
  rw [← h.source_eq] at hitems ⊢
  exact Scan.items_replace hitems h.unfinished hname hparen hnumber

end Scan

end ColumnFormula
