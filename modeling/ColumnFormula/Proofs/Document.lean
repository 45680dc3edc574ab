import ColumnFormula.Document.Highlight
import ColumnFormula.Document.Token
import ColumnFormula.Proofs.Json.Render

/-!
# Documents lose nothing

A list of tokens or of highlights is read from its document as it was written, in either layout.
The text of a document gives the value it was rendered from (`Json.parse?_render`); what is left to
say here is that no record reads a field otherwise than it writes it: a field that is left out where
there is nothing to write, a value that is a string or an object, a table that may be null.
-/

namespace ColumnFormula

namespace Document

/-! ## Fields -/

theorem namesAreTexts_map (members : List (String × Json)) :
    namesAreTexts (members.map fun (name, value) => (some name, value)) = true := by
  simp [namesAreTexts]

/-- A field that is written only if it is there is read as it was. -/
theorem optional?_map {α : Type} {read : Json → Option α} {write : α → Json} (a : Option α)
    (hnull : ∀ x, write x ≠ .null) (h : ∀ x ∈ a, read (write x) = some x) :
    optional? read (a.map write) = some a := by
  cases a with
  | none => rfl
  | some x =>
    rw [Option.map_some, optional?, h x rfl]
    · rfl
    · exact hnull x

theorem optional?_position {position : Option Nat} (h : ∀ n ∈ position, n < positionLimit) :
    optional? position? (position.map Json.ofNat) = some position :=
  optional?_map position (fun _ => nofun) fun n hn => position?_ofNat (h n hn)

/-- A list of records is read record by record. -/
theorem mapM_map {α : Type} {read : Json → Option α} {write : α → Json} {records : List α}
    (h : ∀ a ∈ records, read (write a) = some a) : (records.map write).mapM read = some records := by
  induction records with
  | nil => rfl
  | cons a records ih =>
    obtain ⟨ha, hrecords⟩ := List.forall_mem_cons.1 h
    rw [List.map_cons, List.mapM_cons, ha, ih hrecords]
    rfl

end Document

open Document

/-! ## Names of kinds -/

namespace Token.Kind

/-- The name of a kind is its word in capitals. -/
theorem documentName_eq_name (kind : Kind) : kind.documentName = kind.name := by
  cases kind <;> decide

/-- A kind is read from its name and from its other names, and from nothing else. -/
theorem ofDocumentName?_eq_some_iff {name : String} {kind : Kind} :
    ofDocumentName? name = some kind ↔ name = kind.name ∨ name ∈ kind.aliases := by
  simp only [ofDocumentName?, documentName_eq_name]
  constructor
  · intro h
    have hcontains := List.find?_some h
    exact List.mem_cons.1 (List.contains_iff_mem.1 hcontains)
  · rintro (rfl | h)
    · cases kind <;> decide
    · cases kind with
      | endOfInput =>
        rw [List.mem_singleton.1 h]
        decide
      | _ => cases h

@[simp] theorem ofDocumentName?_documentName (kind : Kind) :
    ofDocumentName? kind.documentName = some kind :=
  ofDocumentName?_eq_some_iff.2 (Or.inl kind.documentName_eq_name)

/-- Documents name kinds as everything else does. -/
theorem ofDocumentName?_eq_ofName? (name : String) : ofDocumentName? name = ofName? name := by
  ext kind
  show ofDocumentName? name = some kind ↔ ofName? name = some kind
  rw [ofDocumentName?_eq_some_iff, ofName?_eq_some_iff]
  cases kind <;> simp [aliases, endOfInputAlias]

end Token.Kind

/-! ## Tokens -/

namespace ColumnRef

theorem ofJson?_toJson (c : ColumnRef) : ofJson? c.toJson = some c := by
  obtain ⟨table, column⟩ := c
  cases table <;> rfl

end ColumnRef

namespace Token

/-- The document of a value can be held as data. -/
theorem Value.isStorable_toJson (value : Value) : value.toJson.isStorable valueLevels = true := by
  cases value with
  | text s => rfl
  | column c =>
    obtain ⟨table, column⟩ := c
    cases table <;> rfl

theorem Value.ofJson?_toJson (value : Value) : ofJson? value.toJson = some value := by
  have hstorable := value.isStorable_toJson
  cases value with
  | text s => exact if_pos hstorable
  | column c =>
    have hcolumn : (ColumnRef.ofJson? c.toJson).map Value.column = some (.column c) := by
      rw [c.ofJson?_toJson]
      rfl
    exact (if_pos hstorable).trans hcolumn

theorem Value.toJson_ne_null (value : Value) : value.toJson ≠ .null := by
  cases value <;> exact nofun

/-- The positions of the token are such as can be written. -/
def InRange (t : Token) : Prop :=
  (∀ n ∈ t.start, n < positionLimit) ∧ ∀ n ∈ t.stop, n < positionLimit

theorem ofFields?_toJson {t : Token} (h : t.InRange) :
    ofFields? (some (.ofString t.kind.documentName)) (t.value.map Value.toJson)
      (t.start.map Json.ofNat) (t.stop.map Json.ofNat) = some t := by
  have hkind : required? (named? Kind.ofDocumentName?) (some (.ofString t.kind.documentName)) =
      some t.kind := Kind.ofDocumentName?_documentName t.kind
  have hvalue := optional?_map t.value Value.toJson_ne_null fun v _ => v.ofJson?_toJson
  rw [ofFields?, hkind, hvalue, optional?_position h.1, optional?_position h.2]
  rfl

/-- A token is read from its document. -/
theorem ofJson?_toJson {t : Token} (h : t.InRange) : ofJson? t.toJson = some t := by
  have hfields := ofFields?_toJson h
  rw [toJson, Json.ofMembers, ofJson?, if_pos (namesAreTexts_map _)]
  -- Which members there are depends on the other fields, whatever the kind is called; each is found,
  -- or missed, under its own name.
  obtain ⟨kind, value, start, stop⟩ := t
  generalize kind.documentName = name at hfields ⊢
  cases value <;> cases start <;> cases stop <;> exact hfields

/-- A list of tokens is read from its document in any layout. -/
theorem listOfJson?_render {tokens : List Token} (h : ∀ t ∈ tokens, t.InRange)
    {layout : Json.Layout} (hlayout : layout.IsSpace) :
    Json.parse? ((listToJson tokens).render layout) >>= listOfJson? = some tokens := by
  rw [Json.parse?_render hlayout]
  exact mapM_map fun t ht => ofJson?_toJson (h t ht)

end Token

/-! ## Highlights -/

namespace Highlight

/-- The positions of the highlight are such as can be written. -/
def InRange (h : Highlight) : Prop :=
  h.span.start < positionLimit ∧ h.span.stop < positionLimit

/-- A highlight is read from its document. -/
theorem ofJson?_toJson {h : Highlight} (hrange : h.InRange) : ofJson? h.toJson = some h := by
  have hkind : required? (named? Kind.ofName?) (some (.ofString h.kind.name)) = some h.kind :=
    Kind.ofName?_name h.kind
  have hstart : required? position? (some (.ofNat h.span.start)) = some h.span.start :=
    position?_ofNat hrange.1
  have hstop : required? position? (some (.ofNat h.span.stop)) = some h.span.stop :=
    position?_ofNat hrange.2
  have hfields : ofFields? (some (.ofString h.kind.name)) (some (.ofNat h.span.start))
      (some (.ofNat h.span.stop)) (some (.ofString h.label)) = some h := by
    rw [ofFields?, hkind, hstart, hstop]
    rfl
  rw [toJson, Json.ofMembers, ofJson?, if_pos (namesAreTexts_map _)]
  exact hfields

/-- A list of highlights is read from its document in any layout. -/
theorem listOfJson?_render {highlights : List Highlight} (h : ∀ m ∈ highlights, m.InRange)
    {layout : Json.Layout} (hlayout : layout.IsSpace) :
    Json.parse? ((listToJson highlights).render layout) >>= listOfJson? = some highlights := by
  rw [Json.parse?_render hlayout]
  exact mapM_map fun m hm => ofJson?_toJson (h m hm)

end Highlight

/-- Tokens and highlights are read from their documents, the compact ones and the indented ones, as
they were written: any kind with any value or none, any text, and any positions that can be written.
-/
theorem documents_lossless (tokens : List Token) (highlights : List Highlight)
    (htokens : ∀ t ∈ tokens, t.InRange) (hhighlights : ∀ h ∈ highlights, h.InRange) :
    ∀ layout ∈ [Json.Layout.compact, Json.Layout.indented],
      Json.parse? ((Token.listToJson tokens).render layout) >>= Token.listOfJson? = some tokens ∧
      Json.parse? ((Highlight.listToJson highlights).render layout) >>= Highlight.listOfJson? =
        some highlights := by
  have hspace : ∀ layout ∈ [Json.Layout.compact, Json.Layout.indented], layout.IsSpace :=
    List.forall_mem_cons.2 ⟨Json.Layout.isSpace_compact,
      List.forall_mem_singleton.2 Json.Layout.isSpace_indented⟩
  intro layout hlayout
  exact ⟨Token.listOfJson?_render htokens (hspace layout hlayout),
    Highlight.listOfJson?_render hhighlights (hspace layout hlayout)⟩

/-- A control character, a quotation mark, a backslash and a character beyond U+FFFF come back, and
so do a table beside a kind that has none, an empty column and the last position there is. -/
theorem documents_lossless_odd :
    let tokens : List Token :=
      [⟨.endOfInput, some (.text "\x00\"\\𝄞"), none, some 18446744073709551615⟩,
        ⟨.functionArguments, some (.column ⟨some "", "\x1f"⟩), some 0, none⟩]
    let highlights : List Highlight := [⟨.function, ⟨18446744073709551615, 0⟩, "\n\x7f"⟩]
    (∀ t ∈ tokens, t.InRange) ∧ (∀ h ∈ highlights, h.InRange) ∧
      ∀ layout ∈ [Json.Layout.compact, Json.Layout.indented],
        Json.parse? ((Token.listToJson tokens).render layout) >>= Token.listOfJson? = some tokens ∧
        Json.parse? ((Highlight.listToJson highlights).render layout) >>= Highlight.listOfJson? =
          some highlights := by
  intro tokens highlights
  have htokens : ∀ t ∈ tokens, t.InRange := by
    simp [tokens, Token.InRange, positionLimit]
  have hhighlights : ∀ h ∈ highlights, h.InRange := by
    simp [highlights, Highlight.InRange, positionLimit]
  exact ⟨htokens, hhighlights, documents_lossless tokens highlights htokens hhighlights⟩

end ColumnFormula
