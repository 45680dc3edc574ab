import ColumnFormula.Position
import ColumnFormula.Text.Blank
import ColumnFormula.Token.Basic

/-!
# Sources

A source is an expression made ready for scanning: its characters without the line controls, each
with its place in the expression as it was written.  Scanning works on positions in the source;
everything that is reported goes through the places, and through the offset at which the expression
itself stands in a larger text.  The places are numbered run by run, a run being the text between two
line controls, and `marksOf_eq` says that this numbers each kept character by its place.
-/

namespace ColumnFormula

/-- A character of the source and its place in the expression as written. -/
structure Mark where
  char : Char
  place : Nat
  deriving DecidableEq, Repr, Inhabited

/-- An expression as it is scanned. -/
structure Source where
  expression : String
  offset : Nat
  marks : Array Mark
  deriving DecidableEq, Repr

namespace Source

/-! ## Building a source -/

/-- The runs of text between line controls.  There is one run more than there are line controls. -/
def runs (text : List Char) : List (List Char) :=
  text.splitOnP Text.isLineControl

/-- Numbers the characters run by run.  The next run starts one place behind the line control that
ended the run before it. -/
def numbered (place : Nat) : List (List Char) → List Mark
  | [] => []
  | run :: rest =>
    (run.zipIdx place).map (fun (c, i) => ⟨c, i⟩) ++ numbered (place + run.length + 1) rest

/-- The characters of a text that are kept, with their places. -/
def marksOf (text : List Char) : List Mark :=
  numbered 0 (runs text)

/-- Makes an expression that starts at `offset` ready for scanning. -/
def ofExpression (expression : String) (offset : Nat) : Source :=
  ⟨expression, offset, (marksOf expression.toList).toArray⟩

/-! ## Looking at a source -/

/-- How many characters there are to scan. -/
def length (s : Source) : Nat :=
  s.marks.size

/-- The character at a position. -/
def char? (s : Source) (position : Nat) : Option Char :=
  s.marks[position]?.map (·.char)

/-- The character at a position of the region that ends at `stop`. -/
def charBefore (s : Source) (stop position : Nat) : Option Char :=
  if position < stop then s.char? position else none

/-- Whether there is a character at the position, and it has the property. -/
def holds (s : Source) (p : Char → Bool) (position : Nat) : Bool :=
  (s.char? position).any p

/-- The place in the expression of the character at a position. -/
def place (s : Source) (position : Nat) : Nat :=
  (s.marks[position]?.map (·.place)).getD 0

/-- The characters from one position up to another. -/
def chars (s : Source) (start stop : Nat) : List Char :=
  (s.marks.extract start stop).toList.map (·.char)

/-- The text from one position up to another. -/
def text (s : Source) (start stop : Nat) : String :=
  String.ofList (s.chars start stop)

/-- Where the character at a position is reported to stand. -/
def report (s : Source) (position : Nat) : Nat :=
  wrap (s.offset + s.place position)

/-- Where a stretch that is not empty is reported to stand.  It ends behind its last character, and
not at the next one: line controls that follow it are not part of it. -/
def span (s : Source) (start stop : Nat) : Span :=
  ⟨s.report start, wrap (s.report (stop - 1) + 1)⟩

/-! ## What the places are -/

/-- The kept characters of a text that starts at `place`, each numbered by its place. -/
def kept (place : Nat) : List Char → List Mark
  | [] => []
  | c :: rest =>
    if Text.isLineControl c then kept (place + 1) rest else ⟨c, place⟩ :: kept (place + 1) rest

@[simp] theorem runs_nil : runs [] = [[]] := rfl

theorem runs_cons (c : Char) (rest : List Char) :
    runs (c :: rest) =
      if Text.isLineControl c then [] :: runs rest else (runs rest).modifyHead (c :: ·) := by
  exact List.splitOnP_cons_eq_if_modifyHead c rest

/-- Numbering run by run gives every kept character its place. -/
theorem numbered_runs (text : List Char) (place : Nat) :
    numbered place (runs text) = kept place text := by
  induction text generalizing place with
  | nil => rfl
  | cons c rest ih =>
    rw [runs_cons, kept]
    split
    · simp [numbered, ih]
    · rw [← ih]
      match h : runs rest with
      | [] => exact absurd h (List.splitOnP_ne_nil _ _)
      | run :: more => simp [numbered, Nat.add_assoc, Nat.add_comm 1]

theorem marksOf_eq (text : List Char) : marksOf text = kept 0 text :=
  numbered_runs text 0

@[simp] theorem length_ofExpression (expression : String) (offset : Nat) :
    (ofExpression expression offset).length = (kept 0 expression.toList).length := by
  simp [length, ofExpression, marksOf_eq]

end Source

end ColumnFormula
