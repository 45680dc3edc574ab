import ColumnFormula.Proofs.Command.Choice

/-!
# Ways to misuse options

An option that is said twice, a value where none belongs, a value that is missing and an operand too
many are each seen from the words, wherever they stand.  `Misused` says how.  Words that are sorted have
no option that cannot be read or lacks its value, but may say an option twice or have several operands,
and then what they are sorted into asks for nothing (`tokenizeOf?_of_twice`, `tokenizeOf?_of_operands`).
Words that ask for help are apart from all this: the help may be printed before a misuse is seen.
-/

namespace ColumnFormula

namespace Command

/-! ## What is seen from the words -/

/-- The options that a cluster of letters says.  What is behind an `f` is its value. -/
def letterOptions : List Char → List OptionName
  | 'p' :: rest => .flag .pretty :: letterOptions rest
  | 'f' :: _ => [.setting .format]
  | _ => []

/-- The options that a word says. -/
def optionsOf (word : String) : List OptionName :=
  match word.toList with
  | '-' :: '-' :: name => (optionNames.lookup (name.takeWhile (· != '='))).toList
  | '-' :: cluster => letterOptions cluster
  | _ => []

/-- Whether a word asks for help: by its name, or by its letter in a cluster, with no letter in front
that takes a value. -/
def asksHelp (word : String) : Bool :=
  match word.toList with
  | '-' :: '-' :: name => name == "help".toList
  | '-' :: cluster => (cluster.dropWhile (· == 'p')).head? == some 'h'
  | _ => false

/-- A dash and letters `p`, with more behind them. -/
def clusterWord (letters : Nat) (more : List Char) : String :=
  String.ofList ('-' :: (List.replicate letters 'p' ++ more))

/-- The word has an option at its end that takes a value. -/
inductive AsksValue : String → Prop
  | name (setting : Setting) : AsksValue ("--" ++ setting.name)
  | cluster (letters : Nat) : AsksValue (clusterWord letters ['f'])

/-- The word gives a value to an option that takes none. -/
inductive FlagValue : String → Prop
  | name (flag : Flag) (value : String) : FlagValue ("--" ++ flag.name ++ "=" ++ value)
  | cluster (letters : Nat) (value : List Char) : FlagValue (clusterWord (letters + 1) ('=' :: value))

/-- The word has an equals sign, and no value behind it. -/
inductive EmptyValue : String → Prop
  | name (setting : Setting) : EmptyValue ("--" ++ setting.name ++ "=")
  | cluster (letters : Nat) : EmptyValue (clusterWord letters ['f', '='])

/-- A word behind others is an operand: it is behind the separator, or it stands for itself and is no
value. -/
def Positional (front : List String) (word : String) : Prop :=
  separator ∈ front ∨ Stands word ∧ ∀ last ∈ front.getLast?, ¬ AsksValue last

/-- The words behind `tokenize` are wrong in one of these ways. -/
inductive Misused (words : List String) : Prop
  /-- An option is said twice. -/
  | twice (option : OptionName) (h : 2 ≤ ((ahead words).flatMap optionsOf).count option)
  | flagValue (word : String) (hmem : word ∈ ahead words) (h : FlagValue word)
  | emptyValue (word : String) (hmem : word ∈ ahead words) (h : EmptyValue word)
  /-- Behind an option that takes a value the words end, or another option or the separator is. -/
  | noValue (front : List String) (word : String) (rest : List String)
      (hwords : words = front ++ word :: rest) (hfront : separator ∉ front) (h : AsksValue word)
      (hrest : ∀ next ∈ rest.head?, ¬ Stands next)
  /-- There are two operands. -/
  | operands (front : List String) (first : String) (between : List String) (second : String)
      (rest : List String) (hwords : words = front ++ first :: (between ++ second :: rest))
      (hfirst : Positional front first) (hsecond : Positional (front ++ first :: between) second)

/-! ## Options said twice -/

/-- The option that an item says. -/
def Item.option? : Item → Option OptionName
  | operand _ => none
  | flag f => some (.flag f)
  | setting s _ => some (.setting s)

theorem letterOptions_eq {cluster : List Char} {own : List Item} {waiting : Option Setting}
    (h : readCluster cluster = some ⟨own, waiting⟩) :
    letterOptions cluster =
      own.filterMap Item.option? ++ (waiting.map OptionName.setting).toList := by
  fun_induction readCluster cluster generalizing own waiting with
  | case1 =>
    cases h
    rfl
  | case2 rest ih =>
    obtain ⟨w, hw, heq⟩ := Option.map_eq_some_iff.1 h
    cases heq
    rw [letterOptions, ih hw]
    rfl
  | case3 =>
    cases h
    rfl
  | case4 value =>
    cases h
    rfl
  | case5 value =>
    cases h
    rfl
  | case6 => cases h

theorem nameOptions_eq {name : List Char} {own : List Item} {waiting : Option Setting}
    (h : readName name = some ⟨own, waiting⟩) :
    (optionNames.lookup (name.takeWhile (· != '='))).toList =
      own.filterMap Item.option? ++ (waiting.map OptionName.setting).toList := by
  rw [readName] at h
  split at h
  case h_4 => cases h
  all_goals
    rename_i hlookup _
    cases h
    rw [hlookup]
    rfl

/-- An option word says the options that are read of it. -/
theorem optionsOf_eq {word : String} {own : List Item} {waiting : Option Setting}
    (h : readOption word = some ⟨own, waiting⟩) :
    optionsOf word = own.filterMap Item.option? ++ (waiting.map OptionName.setting).toList := by
  rw [readOption] at h
  rw [optionsOf]
  generalize word.toList = chars at h ⊢
  split at h
  · exact nameOptions_eq h
  · simpa using letterOptions_eq h
  · cases h

theorem optionsOf_eq_nil {word : String} (h : Stands word) : optionsOf word = [] := by
  rcases h with rfl | hhead
  · rfl
  · rw [optionsOf]
    generalize word.toList = chars at hhead
    split
    · exact absurd rfl hhead
    · exact absurd rfl hhead
    · rfl

theorem Sorts.flatMap_optionsOf {words : List String} {items : List Item} (h : Sorts words items)
    (hwords : Command.separator ∉ words) :
    words.flatMap optionsOf = items.filterMap Item.option? := by
  induction h with
  | nil => rfl
  | separated => exact absurd List.mem_cons_self hwords
  | operand hoperand _ ih =>
    rw [List.flatMap_cons, optionsOf_eq_nil (isOption_eq_false_iff.1 hoperand),
      ih fun h => hwords (List.mem_cons_of_mem _ h)]
    rfl
  | option _ hread _ ih =>
    rw [List.flatMap_cons, optionsOf_eq hread, ih fun h => hwords (List.mem_cons_of_mem _ h)]
    simp
  | waiting _ hread hvalue _ ih =>
    rw [List.flatMap_cons, List.flatMap_cons, optionsOf_eq hread,
      optionsOf_eq_nil (isOption_eq_false_iff.1 hvalue),
      ih fun h => hwords (List.mem_cons_of_mem _ (List.mem_cons_of_mem _ h))]
    simp [Item.option?]

theorem count_flag (flag : Flag) (items : List Item) :
    (items.filterMap Item.option?).count (.flag flag) =
      (items.filter (· == .flag flag)).length := by
  rw [← List.countP_eq_length_filter, List.count, List.countP_filterMap]
  refine List.countP_congr fun item _ => ?_
  cases item <;> simp [Item.option?]

theorem count_setting (setting : Setting) (items : List Item) :
    (items.filterMap Item.option?).count (.setting setting) =
      (valuesOf setting items).length := by
  rw [valuesOf, List.length_filterMap_eq_countP, List.count, List.countP_filterMap]
  refine List.countP_congr fun item _ => ?_
  cases item <;> simp [Item.option?]

/-- Items that say an option twice ask for nothing. -/
theorem tokenizeOf?_of_twice {items : List Item} (option : OptionName)
    (h : 2 ≤ (items.filterMap Item.option?).count option) : tokenizeOf? items = none := by
  rw [Option.eq_none_iff_forall_not_mem]
  rintro ⟨expression, options⟩ hmem
  obtain ⟨-, hoffset, hformat, hpretty, hhighlights⟩ := tokenizeOf?_eq_some_iff.1 hmem
  rcases option with ⟨_ | _⟩ | ⟨_ | _⟩
  · rw [count_flag, ← single?_eq_none_iff] at h
    rw [flagOf?, h] at hpretty
    cases hpretty
  · rw [count_flag, ← single?_eq_none_iff] at h
    rw [flagOf?, h] at hhighlights
    cases hhighlights
  · rw [count_setting, ← single?_eq_none_iff] at h
    rw [settingOf?, h] at hoffset
    cases hoffset
  · rw [count_setting, ← single?_eq_none_iff] at h
    rw [settingOf?, h] at hformat
    cases hformat

/-! ## Values -/

theorem not_mem_flagName (flag : Flag) : '=' ∉ flag.name.toList := by
  cases flag <;> decide

theorem lookup_flagName (flag : Flag) :
    optionNames.lookup flag.name.toList = some (.flag flag) := by
  cases flag <;> rfl

theorem toList_clusterWord (letters : Nat) (more : List Char) :
    (clusterWord letters more).toList = '-' :: (List.replicate letters 'p' ++ more) :=
  String.toList_ofList

/-- Every `p` in a cluster says the same. -/
theorem readCluster_letters (letters : Nat) (more : List Char) :
    readCluster (List.replicate letters 'p' ++ more) =
      (readCluster more).map fun w =>
        { w with items := List.replicate letters (.flag .pretty) ++ w.items } := by
  induction letters with
  | zero =>
    show readCluster more = _
    cases readCluster more <;> rfl
  | succ letters ih =>
    rw [List.replicate_succ, List.cons_append, readCluster, ih, Option.map_map]
    rfl

theorem readOption_clusterWord (letters : Nat) {more : List Char} (h : more.head? ≠ some '-') :
    readOption (clusterWord letters more) =
      (readCluster more).map fun w =>
        { w with items := List.replicate letters (.flag .pretty) ++ w.items } := by
  rw [readOption, toList_clusterWord, ← readCluster_letters]
  split
  · rename_i name hname
    have hhead := congrArg List.head? (List.cons.inj hname).2
    cases letters with
    | zero => exact absurd hhead h
    | succ letters => cases hhead
  · rename_i hcluster
    rw [(List.cons.inj hcluster).2]
  · rename_i hcluster
    exact absurd rfl (hcluster _)

theorem FlagValue.readOption_eq_none {word : String} (h : FlagValue word) :
    isOption word = true ∧ readOption word = none := by
  cases h with
  | name flag value =>
    have hname := not_mem_flagName flag
    rw [isOption, readOption, toList_joined]
    refine ⟨rfl, ?_⟩
    show readName _ = none
    rw [readName, Text.takeWhile_bne_append hname, Text.dropWhile_bne_append hname,
      lookup_flagName]
  | cluster letters value =>
    refine ⟨?_, ?_⟩
    · rw [isOption, toList_clusterWord]
      rfl
    · rw [readOption_clusterWord _ (by simp)]
      rfl

theorem AsksValue.waits {word : String} (h : AsksValue word) : Waits word := by
  cases h with
  | name setting => exact ⟨by cases setting <;> rfl, _, _, readOption_apart setting⟩
  | cluster letters =>
    refine ⟨?_, _, _, readOption_clusterWord letters (by decide)⟩
    rw [isOption, toList_clusterWord]
    cases letters <;> rfl

theorem eq_settingName_of_lookup {name : List Char} {setting : Setting}
    (h : optionNames.lookup name = some (.setting setting)) : name = setting.name.toList := by
  obtain ⟨front, back, hnames, -⟩ := List.lookup_eq_some_iff.1 h
  have hmem : (name, OptionName.setting setting) ∈ optionNames := by
    rw [hnames]
    exact List.mem_append_right _ List.mem_cons_self
  rw [optionNames] at hmem
  cases setting <;> simpa [Setting.name] using hmem

theorem exists_letters_of_waiting {cluster : List Char} {own : List Item} {setting : Setting}
    (h : readCluster cluster = some ⟨own, some setting⟩) :
    ∃ letters, cluster = List.replicate letters 'p' ++ ['f'] := by
  fun_induction readCluster cluster generalizing own with
  | case1 => cases h
  | case2 rest ih =>
    obtain ⟨⟨more, waiting⟩, hw, heq⟩ := Option.map_eq_some_iff.1 h
    cases heq
    obtain ⟨letters, rfl⟩ := ih hw
    exact ⟨letters + 1, rfl⟩
  | case3 => exact ⟨0, rfl⟩
  | case4 => cases h
  | case5 => cases h
  | case6 => cases h

theorem eq_settingName_of_waiting {name : List Char} {own : List Item} {setting : Setting}
    (h : readName name = some ⟨own, some setting⟩) : name = setting.name.toList := by
  rw [readName] at h
  split at h
  · cases h
  · rename_i hlookup hrest
    cases h
    have hname := List.takeWhile_append_dropWhile (p := (· != '=')) (l := name)
    rw [hrest, List.append_nil] at hname
    rw [← hname]
    exact eq_settingName_of_lookup hlookup
  · cases h
  · cases h

theorem Waits.asksValue {word : String} (h : Waits word) : AsksValue word := by
  obtain ⟨-, own, setting, hread⟩ := h
  rw [readOption] at hread
  split at hread
  · rename_i name hword
    have heq : word = "--" ++ setting.name := by
      rw [← String.toList_inj, hword, eq_settingName_of_waiting hread]
      simp [String.toList_append]
    rw [heq]
    exact .name setting
  · rename_i cluster _ hword
    obtain ⟨letters, rfl⟩ := exists_letters_of_waiting hread
    rw [← String.ofList_toList (s := word), hword]
    exact .cluster letters
  · cases hread

theorem EmptyValue.exists_readOption {word : String} (h : EmptyValue word) :
    isOption word = true ∧
      ∃ own setting, readOption word = some ⟨own ++ [.setting setting ""], none⟩ := by
  cases h with
  | name setting => exact ⟨by cases setting <;> rfl, [], setting, by cases setting <;> rfl⟩
  | cluster letters =>
    refine ⟨?_, _, .format, readOption_clusterWord letters (by decide)⟩
    rw [isOption, toList_clusterWord]
    cases letters <;> rfl

/-- An option among words that are sorted can be read, and what is read is among the items. -/
theorem Sorts.exists_of_mem {words : List String} {items : List Item} (h : Sorts words items)
    (hwords : Command.separator ∉ words) {word : String} (hword : word ∈ words)
    (hoption : isOption word = true) :
    ∃ own waiting, readOption word = some ⟨own, waiting⟩ ∧ own ⊆ items := by
  induction h with
  | nil => cases hword
  | separated => exact absurd List.mem_cons_self hwords
  | operand hoperand _ ih =>
    rcases List.mem_cons.1 hword with rfl | hword
    · rw [hoperand] at hoption
      cases hoption
    · obtain ⟨own, waiting, hread, hown⟩ := ih (fun h => hwords (List.mem_cons_of_mem _ h)) hword
      exact ⟨own, waiting, hread, List.Subset.trans hown (List.subset_cons_self _ _)⟩
  | option _ hread _ ih =>
    rcases List.mem_cons.1 hword with rfl | hword
    · exact ⟨_, _, hread, List.subset_append_left _ _⟩
    · obtain ⟨own, waiting, hread, hown⟩ := ih (fun h => hwords (List.mem_cons_of_mem _ h)) hword
      exact ⟨own, waiting, hread, List.Subset.trans hown (List.subset_append_right _ _)⟩
  | waiting _ hread hvalue _ ih =>
    rcases List.mem_cons.1 hword with rfl | hword
    · exact ⟨_, _, hread, List.subset_append_left _ _⟩
    rcases List.mem_cons.1 hword with rfl | hword
    · rw [hvalue] at hoption
      cases hoption
    · obtain ⟨own, waiting, hread, hown⟩ :=
        ih (fun h => hwords (List.mem_cons_of_mem _ (List.mem_cons_of_mem _ h))) hword
      exact ⟨own, waiting, hread,
        List.Subset.trans hown
          (List.Subset.trans (List.subset_cons_self _ _) (List.subset_append_right _ _))⟩

/-- A value that cannot be read is not made up for by another. -/
theorem settingOf?_of_unread {α : Type} {setting : Setting} {read : String → Option α} {default : α}
    {items : List Item} {value : String} (hmem : .setting setting value ∈ items)
    (hread : read value = none) : settingOf? setting read default items = none := by
  have hvalue : value ∈ valuesOf setting items := List.mem_filterMap.2 ⟨_, hmem, if_pos rfl⟩
  rw [settingOf?]
  rcases hsingle : single? (valuesOf setting items) with _ | (_ | only)
  · rfl
  · rw [single?_eq_some_none_iff.1 hsingle] at hvalue
    cases hvalue
  · rw [single?_eq_some_some_iff.1 hsingle] at hvalue
    obtain rfl := List.mem_singleton.1 hvalue
    exact hread

/-- Items that give no text to an option ask for nothing. -/
theorem tokenizeOf?_of_empty {items : List Item} {setting : Setting}
    (h : .setting setting "" ∈ items) : tokenizeOf? items = none := by
  rw [Option.eq_none_iff_forall_not_mem]
  rintro ⟨expression, options⟩ hmem
  obtain ⟨-, hoffset, hformat, -⟩ := tokenizeOf?_eq_some_iff.1 hmem
  cases setting with
  | offset =>
    rw [settingOf?_of_unread h rfl] at hoffset
    cases hoffset
  | format =>
    rw [settingOf?_of_unread h rfl] at hformat
    cases hformat

/-! ## Operands -/

/-- Words in front of an operand are sorted on their own, and the operand is an item. -/
theorem Sorts.of_positional {front rest : List String} {word : String} {all : List Item}
    (h : Sorts (front ++ word :: rest) all) (hword : Positional front word) :
    ∃ items more, Sorts front items ∧ all = items ++ .operand word :: more := by
  by_cases hfront : Command.separator ∈ front
  · obtain ⟨start, behind, rfl, hstart⟩ := List.eq_append_cons_of_mem hfront
    rw [List.append_assoc, List.cons_append] at h
    obtain ⟨items, hitems, rfl⟩ := h.separated_split hstart
    refine ⟨items ++ behind.map .operand, rest.map .operand,
      hitems.append hstart (.separated behind), ?_⟩
    simp
  · obtain ⟨hstands, hlast⟩ := hword.resolve_left hfront
    obtain ⟨items, more, hitems, hmore, rfl⟩ :=
      h.split hfront fun last hmem hwaits => hlast last hmem hwaits.asksValue
    have hoperand := isOption_eq_false_iff.2 hstands
    cases hmore with
    | separated => exact absurd rfl (ne_separator_of_operand hoperand)
    | operand _ hrest => exact ⟨items, _, hitems, rfl⟩
    | option hoption =>
      rw [hoperand] at hoption
      cases hoption
    | waiting hoption =>
      rw [hoperand] at hoption
      cases hoption

/-- Items with several operands ask for nothing. -/
theorem tokenizeOf?_of_operands {items more rest : List Item} {first second : String} :
    tokenizeOf? (items ++ .operand first :: more ++ .operand second :: rest) = none := by
  rw [Option.eq_none_iff_forall_not_mem]
  rintro ⟨expression, options⟩ hmem
  have hsingle := (tokenizeOf?_eq_some_iff.1 hmem).1
  have hnone : single? (operandsOf (items ++ .operand first :: more ++ .operand second :: rest)) =
      none := by
    rw [single?_eq_none_iff]
    simp [operandsOf, List.filterMap_append]
    omega
  rw [hnone] at hsingle
  cases hsingle

/-! ## Misuse -/

/-- Words that are wrong ask for nothing. -/
theorem Misused.tokenizeOf?_eq_none {words : List String} {items : List Item}
    (hmisused : Misused words) (h : Sorts words items) : tokenizeOf? items = none := by
  obtain ⟨own, behind, hown, rfl, -⟩ := h.ahead
  have hfree := (ahead_cases words).1
  cases hmisused with
  | twice option htwice =>
    rw [hown.flatMap_optionsOf hfree] at htwice
    refine tokenizeOf?_of_twice option ?_
    rw [List.filterMap_append, List.count_append]
    exact Nat.le_add_right_of_le htwice
  | flagValue word hmem hflag =>
    obtain ⟨hoption, hnone⟩ := hflag.readOption_eq_none
    obtain ⟨_, _, hread, -⟩ := hown.exists_of_mem hfree hmem hoption
    rw [hnone] at hread
    cases hread
  | emptyValue word hmem hempty =>
    obtain ⟨hoption, said, setting, hread⟩ := hempty.exists_readOption
    obtain ⟨_, _, hread', hsaid⟩ := hown.exists_of_mem hfree hmem hoption
    cases hread.symm.trans hread'
    exact tokenizeOf?_of_empty (List.mem_append_left _
      (hsaid (List.mem_append_right _ List.mem_cons_self)))
  | noValue front word rest hwords hfront hword hrest =>
    rw [hwords] at h
    obtain ⟨value, more, rfl, hvalue⟩ := h.value_of_waits hfront hword.waits
    exact absurd (isOption_eq_false_iff.1 hvalue) (hrest value rfl)
  | operands front first between second rest hwords hfirst hsecond =>
    have hwords' : words = (front ++ first :: between) ++ second :: rest := by
      rw [hwords, List.append_assoc, List.cons_append]
    rw [hwords'] at h
    obtain ⟨items, more, hitems, heq⟩ := h.of_positional hsecond
    obtain ⟨items, between, -, rfl⟩ := hitems.of_positional hfirst
    rw [heq]
    exact tokenizeOf?_of_operands

theorem ofWords?_of_misused {words : List String} (h : Misused words) :
    Request.ofWords? ("tokenize" :: words) = none := by
  cases hrequest : Request.ofWords? ("tokenize" :: words) with
  | none => rfl
  | some request =>
    obtain ⟨expression, options, rfl⟩ := exists_tokenize_of_ofWords? hrequest
    obtain ⟨items, hitems, hasked⟩ := ofWords?_tokenize_eq_some_iff.1 hrequest
    rw [h.tokenizeOf?_eq_none hitems] at hasked
    cases hasked

end Command

open Command

/-- However options and an expression are written, the program runs with what is chosen; words that are
wrong, and do not ask for help, end it with the code of a misuse, and nothing is printed. -/
theorem run_tokenize_options :
    (∀ (choice : Choice) (a : Arrangement choice),
      Request.ofWords? ("tokenize" :: a.words) =
        some (.tokenize choice.expression choice.options) ∧
      ∀ input, run ("tokenize" :: a.words) input =
        .ofAnswer ((Request.tokenize choice.expression choice.options).answer input)) ∧
    ∀ words, Misused words → (∀ word ∈ ahead words, asksHelp word = false) →
      ∀ input, run ("tokenize" :: words) input = ⟨2, "", none⟩ := by
  refine ⟨fun choice a => ⟨a.ofWords?_words, run_of_request a.ofWords?_words⟩,
    fun words h _ input => ?_⟩
  rw [run, ofWords?_of_misused h]
  rfl

/-- The expression `-` behind a cluster that ends in a value, and an option behind the expression; the
same option once more. -/
theorem run_tokenize_options_dash :
    Request.ofWords? ["tokenize", "-pftext", "-", "--offset=+007"] =
        some (.tokenize (some "-") ⟨7, .text, true, false⟩) ∧
      run ["tokenize", "-pftext", "-", "--offset=+007", "-p"] none = ⟨2, "", none⟩ := by
  refine ⟨(run_tokenize_options.1 ⟨some "-", some ⟨true, 2, 7, by decide⟩, some .text, true, false⟩
    ⟨[.clusterJoined true false .text, .operand "-", .joined .offset "+007"], none, ?_, ?_⟩).1,
    run_tokenize_options.2 _ (.twice (.flag .pretty) ?_) ?_ none⟩
  · decide
  · intro word hword
    exact Or.inl (by simpa using hword)
  · decide
  · decide

end ColumnFormula
