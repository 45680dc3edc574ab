import ColumnFormula.Proofs.Document
import ColumnFormula.Proofs.Document.Field

/-!
# Forms of documents

A token may be written in many ways: as an object, its members in any order and among others, or as an
array of its fields; fields that it lacks may be left out or null; a column may be an object or a pair.
`Token.WrittenAs` lists them, and each is read as the token that it is written for
(`Token.WrittenAs.ofJson?_eq`).  What is in no such form because a member is there twice is not read.
-/

namespace ColumnFormula

open Document

/-! ## Names of kinds -/

namespace Token.Kind

theorem ofName?_eq_toOption (name : String) : ofName? name = (ofName name).toOption := by
  rw [ofName]
  cases ofName? name <;> rfl

theorem ofName_eq_ok_iff {name : String} {kind : Kind} :
    ofName name = .ok kind ↔ ofName? name = some kind := by
  rw [ofName]
  cases ofName? name <;> simp

/-- The strings that stand for a kind: its name, and for the end of the input its short form. -/
inductive WrittenAs : Kind → Json → Prop
  | name (kind : Kind) : WrittenAs kind (.ofString kind.name)
  | short : WrittenAs .endOfInput (.ofString "EOF")

theorem WrittenAs.named?_eq {kind : Kind} {json : Json} (h : kind.WrittenAs json) :
    json ≠ .null ∧ named? ofDocumentName? json = some kind := by
  refine ⟨by cases h <;> exact nofun, ?_⟩
  cases h with
  | name => exact ofDocumentName?_eq_some_iff.2 (Or.inl rfl)
  | short => exact ofDocumentName?_eq_some_iff.2 (Or.inr List.mem_cons_self)

end Token.Kind

/-! ## Texts and positions -/

namespace Document

/-- The form of a text. -/
def TextForm (s : String) (json : Json) : Prop :=
  json = .ofString s

/-- The form of a position. -/
def PositionForm (n : Nat) (json : Json) : Prop :=
  json = .ofNat n ∧ n < positionLimit

theorem TextForm.text?_eq {s : String} {json : Json} (h : TextForm s json) :
    json ≠ .null ∧ text? json = some s := by
  subst h
  exact ⟨nofun, rfl⟩

theorem PositionForm.position?_eq {n : Nat} {json : Json} (h : PositionForm n json) :
    json ≠ .null ∧ position? json = some n := by
  obtain ⟨rfl, hlt⟩ := h
  exact ⟨nofun, position?_ofNat hlt⟩

/-- A text that may be left out can be held. -/
theorem isStorable_of_written {s : Option String} {json : Json} (levels : Nat)
    (h : Written TextForm s (some json)) : json.isStorable levels = true := by
  cases h with
  | null => cases levels <;> rfl
  | given h =>
    subst h
    cases levels <;> rfl

end Document

/-! ## Columns -/

namespace ColumnRef

/-- The forms of a column: an object of a table, which may be left out or null, and a name, or a pair
of them.  An object may have other members if they can be held. -/
inductive WrittenAs : ColumnRef → Json → Prop
  | object {c : ColumnRef} {table : Option Json} {others : List (String × Json)}
      {members : List (Option String × Json)}
      (htable : Written TextForm c.table table)
      (hothers : ∀ m ∈ others, m.2.isStorable (Token.valueLevels - 1) = true)
      (hmembers : Mixed [("table", table), ("column", some (.ofString c.column))] others members) :
      WrittenAs c (.object members)
  | pair {c : ColumnRef} {table : Json}
      (htable : Written TextForm c.table (some table)) :
      WrittenAs c (.array [table, .ofString c.column])

theorem ofFields?_eq {c : ColumnRef} {table : Option Json}
    (htable : Written TextForm c.table table) :
    ofFields? table (some (.ofString c.column)) = some c := by
  rw [ofFields?, htable.optional?_eq fun _ _ => TextForm.text?_eq]
  rfl

/-- A column is read from each of its forms. -/
theorem WrittenAs.ofJson?_eq {c : ColumnRef} {json : Json} (h : c.WrittenAs json) :
    ofJson? json = some c := by
  cases h with
  | @object table others members htable _ hmembers =>
    rw [ofJson?, hmembers.field?_eq (by simp), hmembers.field?_eq (by simp), ← ofFields?_eq htable]
    cases table <;> rfl
  | pair htable => exact ofFields?_eq htable

/-- A column can be held in each of its forms. -/
theorem WrittenAs.isStorable {c : ColumnRef} {json : Json} (h : c.WrittenAs json) :
    json.isStorable Token.valueLevels = true := by
  cases h with
  | @object table others members htable hothers hmembers =>
    show members.all (fun m => m.1.isSome && m.2.isStorable (Token.valueLevels - 1)) = true
    rw [hmembers.2.all_eq, List.all_append, Bool.and_eq_true]
    constructor
    · cases table with
      | none => rfl
      | some table =>
        show (table.isStorable (Token.valueLevels - 1) && true) = true
        rw [isStorable_of_written _ htable]
        rfl
    · rw [List.all_map, List.all_eq_true]
      exact hothers
  | pair htable =>
    show (_ && true) = true
    rw [isStorable_of_written _ htable]
    rfl

theorem writtenAs_toJson (c : ColumnRef) : c.WrittenAs c.toJson := by
  obtain ⟨table, column⟩ := c
  have hothers : ∀ m ∈ ([] : List (String × Json)), m.2.isStorable (Token.valueLevels - 1) = true :=
    nofun
  cases table with
  | none => exact .object .null hothers ⟨nofun, .refl _⟩
  | some s => exact .object (.given rfl) hothers ⟨nofun, .refl _⟩

end ColumnRef

/-! ## Values -/

namespace Token

/-- The forms of a value: a string, or a form of a column. -/
inductive Value.WrittenAs : Value → Json → Prop
  | text (s : String) : WrittenAs (.text s) (.ofString s)
  | column {c : ColumnRef} {json : Json} (h : c.WrittenAs json) : WrittenAs (.column c) json

/-- A value is read from each of its forms. -/
theorem Value.WrittenAs.ofJson?_eq {value : Value} {json : Json} (h : value.WrittenAs json) :
    json ≠ .null ∧ ofJson? json = some value := by
  cases h with
  | text s => exact ⟨nofun, rfl⟩
  | @column c json h =>
    have hstorable := h.isStorable
    have hread : (ColumnRef.ofJson? json).map Value.column = some (.column c) := by
      rw [h.ofJson?_eq]
      rfl
    cases h with
    | object => exact ⟨nofun, (if_pos hstorable).trans hread⟩
    | pair => exact ⟨nofun, (if_pos hstorable).trans hread⟩

theorem Value.writtenAs_toJson (value : Value) : value.WrittenAs value.toJson := by
  cases value with
  | text s => exact .text s
  | column c => exact .column c.writtenAs_toJson

/-! ## Tokens -/

/-- The forms of a token whose kind is written as `kind`: an object of its fields, each but the kind
left out or null if the token lacks it, in any order and among others; or an array of its fields, null
if the token lacks them, from whose end such nulls may be left out. -/
inductive WrittenWith (kind : Json) (t : Token) : Json → Prop
  | object {value start stop : Option Json} {others : List (String × Json)}
      {members : List (Option String × Json)} (hvalue : Written Value.WrittenAs t.value value)
      (hstart : Written PositionForm t.start start) (hstop : Written PositionForm t.stop stop)
      (hmembers : Mixed [("type", some kind), ("value", value), ("start", start), ("end", stop)]
        others members) : WrittenWith kind t (.object members)
  | array {value start stop : Json} {items : List Json} {left : Nat}
      (hvalue : Written Value.WrittenAs t.value (some value))
      (hstart : Written PositionForm t.start (some start))
      (hstop : Written PositionForm t.stop (some stop))
      (hitems : items ++ List.replicate left .null = [kind, value, start, stop]) :
      WrittenWith kind t (.array items)

/-- The forms of a token. -/
def WrittenAs (t : Token) (json : Json) : Prop :=
  ∃ kind, t.kind.WrittenAs kind ∧ WrittenWith kind t json

/-- A null that is left out at the end of an array is read as if it were there. -/
theorem optional?_getElem? {α : Type} (read : Json → Option α) (items : List Json) (left i : Nat) :
    optional? read (items ++ List.replicate left .null)[i]? = optional? read items[i]? := by
  rw [List.getElem?_append]
  split
  · rfl
  · rename_i h
    rw [List.getElem?_replicate, List.getElem?_eq_none (Nat.le_of_not_lt h)]
    split <;> rfl

theorem ofFields?_eq {kind : Json} {t : Token} {value start stop : Option Json}
    (hvalue : Written Value.WrittenAs t.value value) (hstart : Written PositionForm t.start start)
    (hstop : Written PositionForm t.stop stop) :
    ofFields? (some kind) value start stop =
      (named? Kind.ofDocumentName? kind).map fun kind => { t with kind := kind } := by
  rw [ofFields?, hvalue.optional?_eq fun _ _ => Value.WrittenAs.ofJson?_eq,
    hstart.optional?_eq fun _ _ => PositionForm.position?_eq,
    hstop.optional?_eq fun _ _ => PositionForm.position?_eq]
  show (named? Kind.ofDocumentName? kind >>= _) = _
  cases named? Kind.ofDocumentName? kind <;> rfl

/-- What is written as the kind decides whether a form is read, and as which kind. -/
theorem WrittenWith.ofJson?_eq {kind json : Json} {t : Token} (h : WrittenWith kind t json)
    (hkind : kind ≠ .null) :
    ofJson? json = (named? Kind.ofDocumentName? kind).map fun kind => { t with kind := kind } := by
  cases h with
  | @object value start stop others members hvalue hstart hstop hmembers =>
    rw [ofJson?, if_pos hmembers.namesAreTexts_eq, hmembers.field?_eq (by simp),
      hmembers.field?_eq (by simp), hmembers.field?_eq (by simp), hmembers.field?_eq (by simp),
      ← ofFields?_eq hvalue hstart hstop]
    -- Which members there are depends on the fields; each is found, or missed, under its name.
    cases value <;> cases start <;> cases stop <;> rfl
  | @array value start stop items left hvalue hstart hstop hitems =>
    have hlength : items.length ≤ 4 := by
      have hall := congrArg List.length hitems
      rw [List.length_append] at hall
      exact Nat.le.intro hall
    have hfirst : items[0]? = some kind := by
      cases items with
      | nil =>
        have hmem : kind ∈ List.replicate left Json.null := by
          rw [← List.nil_append (List.replicate left Json.null), hitems]
          exact List.mem_cons_self
        exact absurd (List.eq_of_mem_replicate hmem) hkind
      | cons first rest => rw [List.getElem?_cons_zero, (List.cons.inj hitems).1]
    rw [ofJson?, if_pos hlength, hfirst, ← ofFields?_eq hvalue hstart hstop, ofFields?,
      ← optional?_getElem? _ items left, ← optional?_getElem? _ items left,
      ← optional?_getElem? _ items left, hitems]
    rfl

/-- A token is read from each of its forms. -/
theorem WrittenAs.ofJson?_eq {t : Token} {json : Json} (h : t.WrittenAs json) :
    ofJson? json = some t := by
  obtain ⟨kind, hkind, hjson⟩ := h
  obtain ⟨hnull, hread⟩ := hkind.named?_eq
  rw [hjson.ofJson?_eq hnull, hread]
  rfl

/-- A list of tokens is read from forms of them. -/
theorem listOfJson?_eq {tokens : List Token} {forms : List Json}
    (h : List.Forall₂ WrittenAs tokens forms) : listOfJson? (.array forms) = some tokens := by
  show forms.mapM ofJson? = some tokens
  induction h with
  | nil => rfl
  | cons htoken _ ih =>
    rw [List.mapM_cons, htoken.ofJson?_eq, ih]
    rfl

/-- What is written of a token is one of its forms. -/
theorem writtenAs_toJson {t : Token} (h : t.InRange) : t.WrittenAs t.toJson := by
  obtain ⟨kind, value, start, stop⟩ := t
  have hvalue : Written Value.WrittenAs value (value.map Value.toJson) :=
    .of_map fun v _ => v.writtenAs_toJson
  have hstart : Written PositionForm start (start.map Json.ofNat) :=
    .of_map fun n hn => ⟨rfl, h.1 n hn⟩
  have hstop : Written PositionForm stop (stop.map Json.ofNat) :=
    .of_map fun n hn => ⟨rfl, h.2 n hn⟩
  have hkind : kind.WrittenAs (.ofString kind.documentName) := kind.documentName_eq_name ▸ .name kind
  refine ⟨_, hkind, .object hvalue hstart hstop (⟨nofun, ?_⟩ : Mixed _ [] _)⟩
  cases value <;> cases start <;> cases stop <;> exact .refl _

/-! ## Members that are there twice -/

/-- A member of the name is there more than once. -/
def Doubled (members : List (Option String × Json)) (name : String) : Prop :=
  2 ≤ (members.map (·.1)).count (some name)

instance (members : List (Option String × Json)) (name : String) :
    Decidable (Doubled members name) :=
  inferInstanceAs (Decidable (_ ≤ _))

/-- A member of a token, or of the column that it carries, is there more than once. -/
inductive Doubles : Json → Prop
  | token {members : List (Option String × Json)} {name : String}
      (hname : name ∈ ["type", "value", "start", "end"]) (h : Doubled members name) :
      Doubles (.object members)
  | column {members column : List (Option String × Json)} {name : String}
      (hcolumn : (some "value", .object column) ∈ members)
      (hname : name ∈ ["table", "column"]) (h : Doubled column name) : Doubles (.object members)
  | item {items : List Json} {column : List (Option String × Json)} {name : String}
      (hcolumn : items[1]? = some (.object column))
      (hname : name ∈ ["table", "column"]) (h : Doubled column name) : Doubles (.array items)

theorem Value.ofJson?_of_doubled {column : List (Option String × Json)} {name : String}
    (hname : name ∈ ["table", "column"]) (h : Doubled column name) :
    optional? ofJson? (some (.object column)) = none := by
  have hcolumn : ColumnRef.ofJson? (.object column) = none := by
    rw [ColumnRef.ofJson?]
    rcases List.mem_pair.1 hname with rfl | rfl
    · rw [field?_eq_none_iff.2 h]
      rfl
    · rw [field?_eq_none_iff.2 h]
      cases field? column "table" <;> rfl
  have hvalue : ofJson? (.object column) = none := by
    show (if _ then (ColumnRef.ofJson? (.object column)).map _ else none) = _
    rw [hcolumn, Option.map_none, ite_self]
  show (ofJson? (.object column)).map some = none
  rw [hvalue]
  rfl

theorem ofFields?_of_value {kind value start stop : Option Json}
    (h : optional? Value.ofJson? value = none) : ofFields? kind value start stop = none := by
  rw [ofFields?, h]
  cases required? (named? Kind.ofDocumentName?) kind <;> rfl

/-- Nothing is read where a known member is there twice. -/
theorem Doubles.ofJson?_eq_none {json : Json} (h : Doubles json) : ofJson? json = none := by
  cases h with
  | @token members name hname h =>
    have hnone := field?_eq_none_iff.2 h
    rw [ofJson?]
    simp only [List.mem_cons, List.not_mem_nil, or_false] at hname
    rcases hname with rfl | rfl | rfl | rfl <;> rw [hnone] <;> simp
  | @column members column name hcolumn hname h =>
    have hvalue := Value.ofJson?_of_doubled hname h
    rw [ofJson?]
    rcases field?_of_mem hcolumn with hfield | hfield
    · rw [hfield]
      simp
    · rw [hfield]
      simp [ofFields?_of_value hvalue]
  | @item items column name hcolumn hname h =>
    have hvalue := Value.ofJson?_of_doubled hname h
    rw [ofJson?, hcolumn, ofFields?_of_value hvalue, ite_self]

theorem listOfJson?_eq_none {forms : List Json} {json : Json} (hmem : json ∈ forms)
    (h : ofJson? json = none) : listOfJson? (.array forms) = none := by
  show forms.mapM ofJson? = none
  induction forms with
  | nil => cases hmem
  | cons form forms ih =>
    rw [List.mapM_cons]
    rcases List.mem_cons.1 hmem with rfl | hmem
    · rw [h]
      rfl
    · rw [ih hmem]
      cases ofJson? form <;> rfl

/-! ## The forms of a list -/

/-- A string is read as the kind that bears the name, or not at all. -/
theorem WrittenWith.ofJson?_ofString {name : String} {json : Json} {t : Token}
    (h : WrittenWith (.ofString name) t json) :
    ofJson? json = (Kind.ofName name).toOption.map fun kind => { t with kind := kind } := by
  rw [h.ofJson?_eq nofun, ← Kind.ofName?_eq_toOption, ← Kind.ofDocumentName?_eq_ofName?]
  rfl

end Token

open Token

/-- All forms of a token mean the same token: a text of forms of tokens, in a list, is read as the list
of these tokens, whatever the text is and in particular as the forms are rendered.  A text where a known
member of a token or of its column is there twice is not read.  A string under the kind is read if it is
the name of a kind, as that kind, and the kind is written under its name, which is its word in
capitals. -/
theorem forms_mean_tokens :
    (∀ tokens forms, List.Forall₂ Token.WrittenAs tokens forms →
      (∀ text, Json.parse? text = some (.array forms) →
        Json.parse? text >>= Token.listOfJson? = some tokens) ∧
      ∀ layout : Json.Layout, layout.IsSpace →
        Json.parse? ((Json.array forms).render layout) >>= Token.listOfJson? = some tokens) ∧
    (∀ forms, (∃ form ∈ forms, Doubles form) →
      (∀ text, Json.parse? text = some (.array forms) →
        Json.parse? text >>= Token.listOfJson? = none) ∧
      ∀ layout : Json.Layout, layout.IsSpace →
        Json.parse? ((Json.array forms).render layout) >>= Token.listOfJson? = none) ∧
    (∀ name t form, WrittenWith (.ofString name) t form →
      Token.ofJson? form = (Kind.ofName name).toOption.map fun kind => { t with kind := kind }) ∧
    (∀ name kind, Kind.ofName name = .ok kind ↔
      name = kind.name ∨ (name = "EOF" ∧ kind = .endOfInput)) ∧
    ∀ t : Token, t.kind.name = String.ofList (Kind.screaming t.kind.word.toList) ∧
      ∃ members, t.toJson = .ofMembers (("type", .ofString t.kind.name) :: members) := by
  refine ⟨fun tokens forms h => ?_, fun forms h => ?_, fun name t form h => h.ofJson?_ofString,
    fun name kind => ?_, fun t => ⟨t.kind.documentName_eq_name.symm, ?_⟩⟩
  · have hlist := listOfJson?_eq h
    constructor
    · intro text htext
      rw [htext]
      exact hlist
    · intro layout hlayout
      rw [Json.parse?_render hlayout]
      exact hlist
  · obtain ⟨form, hmem, hdoubles⟩ := h
    have hnone := listOfJson?_eq_none hmem hdoubles.ofJson?_eq_none
    constructor
    · intro text htext
      rw [htext]
      exact hnone
    · intro layout hlayout
      rw [Json.parse?_render hlayout]
      exact hnone
  · rw [Kind.ofName_eq_ok_iff]
    exact Kind.ofName?_eq_some_iff
  · rw [← t.kind.documentName_eq_name]
    exact ⟨_, rfl⟩

/-- The end of the input under its short form, with a member that no reader knows in front and no
value; a column in arrays, without its end; and a table that is there twice. -/
theorem forms_mean_tokens_short :
    let short : Json := .object [(some "note", .array [.bool true]), (some "value", .null),
      (some "type", .ofString "EOF")]
    let pair : Json := .array [.ofString "COLUMN", .array [.null, .ofString "tax"], .ofNat 7]
    let twice : Json := .object [(some "type", .ofString "COLUMN"), (some "value",
      .object [(some "table", .null), (some "column", .ofString "tax"), (some "table", .null)])]
    Json.parse? ((Json.array [short, pair]).render .compact) >>= Token.listOfJson? =
        some [⟨.endOfInput, none, none, none⟩, ⟨.column, some (.column ⟨none, "tax"⟩), some 7, none⟩] ∧
      Json.parse? ((Json.array [short, twice]).render .indented) >>= Token.listOfJson? = none ∧
      Token.ofJson? short = (Kind.ofName "EOF").toOption.map Token.bare := by
  intro short pair twice
  obtain ⟨hforms, hdoubles, hname, -⟩ := forms_mean_tokens
  have hothers : Mixed [("type", some (.ofString "EOF")), ("value", some .null), ("start", none),
      ("end", none)] [("note", .array [.bool true])] [(some "note", .array [.bool true]),
      (some "value", .null), (some "type", .ofString "EOF")] :=
    ⟨by decide, List.reverse_perm [(some "type", Json.ofString "EOF"), (some "value", Json.null),
      (some "note", Json.array [.bool true])]⟩
  have hshort : WrittenWith (.ofString "EOF") ⟨.endOfInput, none, none, none⟩ short :=
    .object .null .omitted .omitted hothers
  have hpair : WrittenWith (.ofString "COLUMN")
      ⟨.column, some (.column ⟨none, "tax"⟩), some 7, none⟩ pair :=
    .array (.given (.column (.pair .null))) (.given ⟨rfl, by decide⟩) .null
      (rfl : _ ++ List.replicate 1 Json.null = _)
  have htwice : Doubles twice :=
    .column (List.mem_cons_of_mem _ List.mem_cons_self) List.mem_cons_self
      (by decide : Doubled _ "table")
  have hread := hforms _ _ (.cons ⟨_, .short, hshort⟩ (.cons ⟨_, .name .column, hpair⟩ .nil))
  have hnone := hdoubles [short, twice] ⟨twice, by simp, htwice⟩
  exact ⟨hread.2 .compact Json.Layout.isSpace_compact,
    hnone.2 .indented Json.Layout.isSpace_indented, hname "EOF" _ _ hshort⟩

end ColumnFormula
