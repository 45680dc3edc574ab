import ColumnFormula.Document.Basic
import Mathlib.Data.List.Perm.Basic

/-!
# Fields among members

A field is looked for among all members of an object, so it is found wherever it stands
(`field?_perm`) and whatever unknown members are around it (`Mixed.field?_eq`).  A member that is there
twice is found by no reader (`field?_eq_none_iff`).
-/

namespace ColumnFormula.Document

/-! ## Members of one name -/

/-- The members that bear a name. -/
def named (members : List (Option String × Json)) (name : String) : List (Option String × Json) :=
  members.filter fun m => m.1 == some name

section Named

variable {members members' : List (Option String × Json)} {name : String}

/-- How many members bear the name decides what is found. -/
theorem field?_cases (members : List (Option String × Json)) (name : String) :
    named members name = [] ∧ field? members name = some none ∨
      (∃ value, named members name = [(some name, value)] ∧
        field? members name = some (some value)) ∨
      2 ≤ (named members name).length ∧ field? members name = none := by
  unfold field?
  split
  · rename_i hnamed
    exact Or.inl ⟨hnamed, rfl⟩
  · rename_i n value hfound
    have hnamed : named members name = [(n, value)] := hfound
    have hmem : (n, value) ∈ named members name := by
      rw [hnamed]
      exact List.mem_cons_self
    obtain rfl : n = some name := eq_of_beq (List.mem_filter.1 hmem).2
    exact Or.inr (Or.inl ⟨value, hnamed, rfl⟩)
  · rename_i hnil hone
    refine Or.inr (Or.inr ⟨?_, rfl⟩)
    rcases hnamed : named members name with _ | ⟨⟨n, value⟩, _ | ⟨m, rest⟩⟩
    · exact absurd hnamed hnil
    · exact absurd hnamed (hone n value)
    · exact Nat.le_add_left 2 rest.length

theorem field?_eq_some_none_iff : field? members name = some none ↔ named members name = [] := by
  rcases field?_cases members name with ⟨hnamed, hfield⟩ | ⟨_, hnamed, hfield⟩ | ⟨hlength, hfield⟩
  · exact iff_of_true hfield hnamed
  · simp [hnamed, hfield]
  · refine iff_of_false (by simp [hfield]) fun hnamed => ?_
    rw [hnamed] at hlength
    cases hlength

theorem field?_eq_some_some_iff {value : Json} :
    field? members name = some (some value) ↔ named members name = [(some name, value)] := by
  rcases field?_cases members name with ⟨hnamed, hfield⟩ | ⟨_, hnamed, hfield⟩ | ⟨hlength, hfield⟩
  · simp [hnamed, hfield]
  · simp [hnamed, hfield]
  · refine iff_of_false (by simp [hfield]) fun hnamed => ?_
    rw [hnamed] at hlength
    exact absurd hlength (by simp)

theorem field?_eq_none_iff_length :
    field? members name = none ↔ 2 ≤ (named members name).length := by
  rcases field?_cases members name with ⟨hnamed, hfield⟩ | ⟨_, hnamed, hfield⟩ | ⟨hlength, hfield⟩
  · simp [hnamed, hfield]
  · simp [hnamed, hfield]
  · exact iff_of_true hfield hlength

theorem length_named :
    (named members name).length = (members.map (·.1)).count (some name) := by
  rw [named, List.count, List.countP_map, List.countP_eq_length_filter]
  rfl

/-- A member that is there more than once is found by no reader. -/
theorem field?_eq_none_iff :
    field? members name = none ↔ 2 ≤ (members.map (·.1)).count (some name) := by
  rw [field?_eq_none_iff_length, length_named]

/-- What is found is decided by the members of the name, in any order. -/
theorem field?_congr (h : (named members name).Perm (named members' name)) :
    field? members name = field? members' name := by
  rcases hfield : field? members name with _ | (_ | value)
  · rw [field?_eq_none_iff_length, h.length_eq] at hfield
    exact (field?_eq_none_iff_length.2 hfield).symm
  · rw [field?_eq_some_none_iff] at hfield
    rw [hfield] at h
    exact (field?_eq_some_none_iff.2 h.nil_eq.symm).symm
  · rw [field?_eq_some_some_iff] at hfield
    rw [hfield] at h
    exact (field?_eq_some_some_iff.2 (List.singleton_perm.1 h).symm).symm

/-- A field is found wherever it stands. -/
theorem field?_perm (h : members.Perm members') : field? members name = field? members' name :=
  field?_congr (h.filter _)

/-- Members of other names do not matter. -/
theorem field?_append (h : some name ∉ members'.map (·.1)) :
    field? (members ++ members') name = field? members name := by
  have hnone : named members' name = [] := by
    rw [← List.length_eq_zero_iff, length_named]
    exact List.count_eq_zero.2 h
  refine field?_congr (.of_eq ?_)
  rw [named, List.filter_append]
  show named members name ++ named members' name = _
  rw [hnone, List.append_nil]

/-- A member that is there is found, unless it is there twice. -/
theorem field?_of_mem {value : Json} (h : (some name, value) ∈ members) :
    field? members name = none ∨ field? members name = some (some value) := by
  have hmem : (some name, value) ∈ named members name := List.mem_filter.2 ⟨h, beq_self_eq_true _⟩
  rcases field?_cases members name with ⟨hnamed, -⟩ | ⟨only, hnamed, hfield⟩ | ⟨-, hfield⟩
  · rw [hnamed] at hmem
    cases hmem
  · rw [hnamed, List.mem_singleton] at hmem
    cases hmem
    exact Or.inr hfield
  · exact Or.inl hfield

theorem namesAreTexts_perm (h : members.Perm members') :
    namesAreTexts members = namesAreTexts members' :=
  h.all_eq

end Named

/-! ## Fields in any order, and others -/

/-- What a field that may be left out is written as: it is left out, or null, or has a value. -/
inductive Written {α : Type} (write : α → Json → Prop) : Option α → Option Json → Prop
  | omitted : Written write none none
  | null : Written write none (some .null)
  | given {a : α} {json : Json} (h : write a json) : Written write (some a) (some json)

/-- A field that may be left out is read from all that it is written as. -/
theorem Written.optional?_eq {α : Type} {write : α → Json → Prop} {read : Json → Option α}
    {a : Option α} {json : Option Json} (h : Written write a json)
    (hread : ∀ a json, write a json → json ≠ .null ∧ read json = some a) :
    optional? read json = some a := by
  cases h with
  | omitted => rfl
  | null => rfl
  | given h =>
    obtain ⟨hnull, hread⟩ := hread _ _ h
    rw [optional?, hread]
    · rfl
    · exact hnull

theorem Written.of_map {α : Type} {write : α → Json → Prop} {a : Option α} {toJson : α → Json}
    (h : ∀ x ∈ a, write x (toJson x)) : Written write a (a.map toJson) := by
  cases a with
  | none => exact .omitted
  | some x => exact .given (h x rfl)

/-- The members of the fields that are there. -/
def present (fields : List (String × Option Json)) : List (Option String × Json) :=
  fields.filterMap fun (name, value) => value.map (some name, ·)

/-- The members are those of the given fields and some others of different names, in any order. -/
def Mixed (fields : List (String × Option Json)) (others : List (String × Json))
    (members : List (Option String × Json)) : Prop :=
  (∀ m ∈ others, m.1 ∉ fields.map (·.1)) ∧
    members.Perm (present fields ++ others.map fun (name, value) => (some name, value))

namespace Mixed

variable {fields : List (String × Option Json)} {others : List (String × Json)}
  {members : List (Option String × Json)}

/-- A field is found among the members as among the fields. -/
theorem field?_eq (h : Mixed fields others members) {name : String}
    (hname : name ∈ fields.map (·.1)) : field? members name = field? (present fields) name := by
  rw [field?_perm h.2, field?_append]
  intro hmem
  obtain ⟨m, hm, heq⟩ := List.mem_map.1 hmem
  obtain ⟨m, hother, rfl⟩ := List.mem_map.1 hm
  cases heq
  exact h.1 m hother hname

theorem namesAreTexts_eq (h : Mixed fields others members) : namesAreTexts members = true := by
  rw [namesAreTexts_perm h.2, namesAreTexts, List.all_eq_true]
  intro m hm
  rcases List.mem_append.1 hm with hm | hm
  · obtain ⟨⟨name, value⟩, -, hvalue⟩ := List.mem_filterMap.1 hm
    obtain ⟨json, -, rfl⟩ := Option.map_eq_some_iff.1 hvalue
    rfl
  · obtain ⟨other, -, rfl⟩ := List.mem_map.1 hm
    rfl

end Mixed

end ColumnFormula.Document
