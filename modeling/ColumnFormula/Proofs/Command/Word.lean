import ColumnFormula.Command.Word
import ColumnFormula.Proofs.Text.Cut

/-!
# How words are sorted

`Sorts` gives the rules by which the words of a command become items, each rule for the word in front,
and `sorts_iff` says that sorting goes by them.  What stands in front of a word matters to it in two ways
only: an option may wait for its value, and the separator may have come.  Where neither is so, words are
sorted on their own (`Sorts.append`, `Sorts.split`).  So the words ahead of the separator are, and the
words behind it are operands (`Sorts.ahead`).
-/

namespace ColumnFormula.Command

/-! ## The rules -/

/-- Words of a command, and the items that they are sorted into. -/
inductive Sorts : List String → List Item → Prop
  | nil : Sorts [] []
  | separated (rest : List String) : Sorts (separator :: rest) (rest.map .operand)
  | operand {word : String} {rest : List String} {more : List Item} (h : isOption word = false)
      (hrest : Sorts rest more) : Sorts (word :: rest) (.operand word :: more)
  /-- An option that does not wait for the next word. -/
  | option {word : String} {own : List Item} {rest : List String} {more : List Item}
      (hoption : isOption word = true) (h : readOption word = some ⟨own, none⟩)
      (hrest : Sorts rest more) : Sorts (word :: rest) (own ++ more)
  /-- An option that takes the next word as its value. -/
  | waiting {word value : String} {own : List Item} {setting : Setting} {rest : List String}
      {more : List Item} (hoption : isOption word = true)
      (h : readOption word = some ⟨own, some setting⟩) (hvalue : isOption value = false)
      (hrest : Sorts rest more) :
      Sorts (word :: value :: rest) (own ++ .setting setting value :: more)

theorem ne_separator_of_readOption {word : String} {w : OptionWord} (h : readOption word = some w) :
    word ≠ separator := by
  rintro rfl
  cases h

theorem ne_separator_of_operand {word : String} (h : isOption word = false) : word ≠ separator := by
  rintro rfl
  cases h

theorem sorts_of_items? {words : List String} {items : List Item} (h : items? words = some items) :
    Sorts words items := by
  fun_induction items? words generalizing items with
  | case1 =>
    obtain rfl := Option.some.inj h
    exact .nil
  | case2 rest =>
    obtain rfl := Option.some.inj h
    exact .separated rest
  | case3 word _ hoption rest own hread ih =>
    obtain ⟨more, hmore, rfl⟩ := Option.map_eq_some_iff.1 h
    exact .option hoption hread (ih hmore)
  | case4 => cases h
  | case5 word _ hoption own setting value rest hread hvalue ih =>
    obtain ⟨more, hmore, rfl⟩ := Option.map_eq_some_iff.1 h
    exact .waiting hoption hread (Bool.eq_false_iff.2 hvalue) (ih hmore)
  | case6 => cases h
  | case7 word rest _ hoption ih =>
    obtain ⟨more, hmore, rfl⟩ := Option.map_eq_some_iff.1 h
    exact .operand (Bool.eq_false_iff.2 hoption) (ih hmore)

theorem Sorts.items?_eq {words : List String} {items : List Item} (h : Sorts words items) :
    items? words = some items := by
  induction h with
  | nil => rfl
  | separated rest =>
    rw [items?.eq_def]
    exact if_pos rfl
  | @operand word rest more h _ ih =>
    rw [items?.eq_def]
    show (if word = separator then _ else _) = _
    rw [if_neg (ne_separator_of_operand h), h, ih]
    rfl
  | @option word own rest more hoption h _ ih =>
    rw [items?.eq_def]
    show (if word = separator then _ else _) = _
    rw [if_neg (ne_separator_of_readOption h), hoption, h]
    show (items? rest).map _ = _
    rw [ih]
    rfl
  | @waiting word value own setting rest more hoption h hvalue _ ih =>
    rw [items?.eq_def]
    show (if word = separator then _ else _) = _
    rw [if_neg (ne_separator_of_readOption h), hoption, h]
    show (if isOption value = true then none else (items? rest).map _) = _
    rw [hvalue, ih]
    rfl

/-- Sorting goes by the rules. -/
theorem sorts_iff {words : List String} {items : List Item} :
    Sorts words items ↔ items? words = some items :=
  ⟨Sorts.items?_eq, sorts_of_items?⟩

/-! ## Words in front of words -/

namespace Sorts

variable {front rest : List String} {items more : List Item}

/-- Words that are sorted, and have no separator among them, leave what is behind them alone. -/
theorem append (h : Sorts front items) (hfront : Command.separator ∉ front)
    (hrest : Sorts rest more) : Sorts (front ++ rest) (items ++ more) := by
  induction h with
  | nil => exact hrest
  | separated => exact absurd List.mem_cons_self hfront
  | operand h _ ih => exact .operand h (ih fun hmem => hfront (List.mem_cons_of_mem _ hmem))
  | option hoption h _ ih =>
    rw [List.append_assoc]
    exact .option hoption h (ih fun hmem => hfront (List.mem_cons_of_mem _ hmem))
  | waiting hoption h hvalue _ ih =>
    have hbehind := ih fun hmem => hfront (List.mem_cons_of_mem _ (List.mem_cons_of_mem _ hmem))
    rw [List.append_assoc]
    exact .waiting hoption h hvalue hbehind

end Sorts

/-- The word is an option whose value is the next word. -/
def Waits (word : String) : Prop :=
  isOption word = true ∧ ∃ own setting, readOption word = some ⟨own, some setting⟩

namespace Sorts

theorem getLast?_of_cons {word last : String} {front : List String} (h : last ∈ front.getLast?) :
    last ∈ (word :: front).getLast? := by
  rw [List.getLast?_cons, h]
  rfl

/-- Words with no separator among them, the last of which does not wait for a value, are sorted on
their own, and so is what is behind them. -/
theorem split {all : List Item} (h : Sorts (front ++ rest) all)
    (hfront : Command.separator ∉ front) (hlast : ∀ word ∈ front.getLast?, ¬ Waits word) :
    ∃ items more, Sorts front items ∧ Sorts rest more ∧ all = items ++ more := by
  induction hn : front.length using Nat.strongRecOn generalizing front all with
  | ind n ih =>
    cases front with
    | nil => exact ⟨[], all, .nil, h, rfl⟩
    | cons word front =>
      rw [List.mem_cons, not_or] at hfront
      have hnext : front.length < n := by
        rw [← hn, List.length_cons]
        omega
      generalize hwords : word :: front ++ rest = words at h
      cases h with
      | nil => cases hwords
      | separated => exact absurd (List.cons.inj hwords).1.symm hfront.1
      | operand hoperand hrest =>
        obtain ⟨rfl, rfl⟩ := List.cons.inj hwords
        obtain ⟨items, more, hitems, hmore, rfl⟩ := ih _ hnext hrest hfront.2
          (fun last h => hlast last (getLast?_of_cons h)) rfl
        exact ⟨_, more, .operand hoperand hitems, hmore, rfl⟩
      | option hoption hread hrest =>
        obtain ⟨rfl, rfl⟩ := List.cons.inj hwords
        obtain ⟨items, more, hitems, hmore, rfl⟩ := ih _ hnext hrest hfront.2
          (fun last h => hlast last (getLast?_of_cons h)) rfl
        exact ⟨_, more, .option hoption hread hitems, hmore, (List.append_assoc _ _ _).symm⟩
      | waiting hoption hread hvalue hrest =>
        obtain ⟨rfl, hbehind⟩ := List.cons.inj hwords
        cases front with
        | nil => exact absurd ⟨hoption, _, _, hread⟩ (hlast word rfl)
        | cons value front =>
          obtain ⟨rfl, rfl⟩ := List.cons.inj hbehind
          rw [List.mem_cons, not_or] at hfront
          have hnext' : front.length < n := Nat.lt_of_succ_lt hnext
          obtain ⟨items, more, hitems, hmore, rfl⟩ := ih _ hnext' hrest hfront.2.2
            (fun last h => hlast last (getLast?_of_cons (getLast?_of_cons h))) rfl
          exact ⟨_, more, .waiting hoption hread hvalue hitems, hmore, by simp⟩

/-- An option that waits for a value has a word behind it that is no option. -/
theorem value_of_waits {word : String} {all : List Item} (h : Sorts (front ++ word :: rest) all)
    (hfront : Command.separator ∉ front) (hword : Waits word) :
    ∃ value behind, rest = value :: behind ∧ isOption value = false := by
  obtain ⟨hoption, own, setting, hread⟩ := hword
  generalize hwords : front ++ word :: rest = words at h
  induction h generalizing front with
  | nil => exact absurd hwords (by simp)
  | separated =>
    cases front with
    | nil => exact absurd (List.cons.inj hwords).1 (ne_separator_of_readOption hread)
    | cons first front => exact absurd (List.cons.inj hwords).1 fun h => hfront (by simp [h])
  | operand hoperand _ ih =>
    cases front with
    | nil =>
      obtain ⟨rfl, -⟩ := List.cons.inj hwords
      exact absurd hoption (Bool.eq_false_iff.1 hoperand)
    | cons first front =>
      exact ih (fun h => hfront (List.mem_cons_of_mem _ h)) (List.cons.inj hwords).2
  | option _ hread' _ ih =>
    cases front with
    | nil =>
      obtain ⟨rfl, -⟩ := List.cons.inj hwords
      cases hread.symm.trans hread'
    | cons first front =>
      exact ih (fun h => hfront (List.mem_cons_of_mem _ h)) (List.cons.inj hwords).2
  | waiting _ _ hvalue _ ih =>
    rcases front with _ | ⟨first, _ | ⟨second, front⟩⟩
    · exact ⟨_, _, (List.cons.inj hwords).2, hvalue⟩
    · obtain ⟨rfl, -⟩ := List.cons.inj (List.cons.inj hwords).2
      exact absurd hoption (Bool.eq_false_iff.1 hvalue)
    · exact ih (fun h => hfront (List.mem_cons_of_mem _ (List.mem_cons_of_mem _ h)))
        (List.cons.inj (List.cons.inj hwords).2).2

/-- Behind the separator every word is an operand. -/
theorem separated_split {all : List Item} (h : Sorts (front ++ Command.separator :: rest) all)
    (hfront : Command.separator ∉ front) :
    ∃ items, Sorts front items ∧ all = items ++ rest.map .operand := by
  have hlast : ∀ word ∈ front.getLast?, ¬ Waits word := by
    intro word hword hwaits
    obtain ⟨start, rfl⟩ := List.getLast?_eq_some_iff.1 hword
    rw [List.append_assoc] at h
    obtain ⟨value, behind, hrest, hvalue⟩ :=
      h.value_of_waits (fun hmem => hfront (List.mem_append_left _ hmem)) hwaits
    obtain ⟨rfl, -⟩ := List.cons.inj hrest
    cases hvalue
  obtain ⟨items, more, hitems, hmore, rfl⟩ := h.split hfront hlast
  exact ⟨items, hitems, congrArg _ (Option.some.inj (hmore.items?_eq.symm.trans
    (Sorts.separated rest).items?_eq))⟩

end Sorts

/-! ## The words ahead of the separator -/

/-- The words ahead of the separator, among which the options are. -/
def ahead (words : List String) : List String :=
  words.takeWhile (· != separator)

theorem ahead_of_not_mem {words : List String} (h : separator ∉ words) : ahead words = words :=
  Text.takeWhile_bne_of_not_mem h

theorem ahead_append {front : List String} (h : separator ∉ front) (rest : List String) :
    ahead (front ++ separator :: rest) = front :=
  Text.takeWhile_bne_append h rest

/-- There is no separator, or it is behind the words ahead of it. -/
theorem ahead_cases (words : List String) : separator ∉ ahead words ∧
    (words = ahead words ∨ ∃ rest, words = ahead words ++ separator :: rest) := by
  by_cases h : separator ∈ words
  · obtain ⟨front, rest, rfl, hfront⟩ := List.eq_append_cons_of_mem h
    rw [ahead_append hfront]
    exact ⟨hfront, Or.inr ⟨rest, rfl⟩⟩
  · rw [ahead_of_not_mem h]
    exact ⟨h, Or.inl rfl⟩

/-- The words ahead of the separator are sorted on their own, and those behind it are operands. -/
theorem Sorts.ahead {words : List String} {all : List Item} (h : Sorts words all) :
    ∃ items behind, Sorts (ahead words) items ∧ all = items ++ behind.map .operand ∧
      (words = Command.ahead words ∧ behind = [] ∨
        words = Command.ahead words ++ Command.separator :: behind) := by
  obtain ⟨hahead, heq | ⟨rest, heq⟩⟩ := ahead_cases words
  · exact ⟨all, [], by rwa [← heq], (List.append_nil _).symm, Or.inl ⟨heq, rfl⟩⟩
  · rw [heq] at h
    obtain ⟨items, hitems, rfl⟩ := h.separated_split hahead
    exact ⟨items, rest, hitems, rfl, Or.inr heq⟩

end ColumnFormula.Command
