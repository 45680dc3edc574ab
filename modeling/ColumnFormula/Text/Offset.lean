/-!
# Places given in bytes

A text is kept in UTF-8, and what looks something up in it answers in bytes: where the find begins and
where it ends.  `slice?` takes the text between two such offsets and refuses an offset that is no border
of a character.  A search for the characters of a class is not given here but described: each find is the
first that begins at or behind the end of the find before it, and the search goes on until there is none
left (`Successive`).  `occurrences` is one such search.
-/

namespace ColumnFormula.Text

/-- What is found in a text: the bytes from `start` up to `stop`. -/
structure Found where
  start : Nat
  stop : Nat
  deriving DecidableEq, Repr

/-- The text between two byte offsets.  There is none if one of them falls inside a character or behind
the text, or if they are the wrong way round. -/
def slice? (text : String) (start stop : Nat) : Option String := do
  let first ← text.pos? ⟨start⟩
  let last ← text.pos? ⟨stop⟩
  let part ← text.slice? first last
  return part.copy

/-- One character of the class stands in the text at exactly the bytes that are found. -/
def Occurs (inClass : Char → Bool) (text : String) (found : Found) : Prop :=
  ∃ before character after, text = before ++ String.singleton character ++ after ∧
    inClass character = true ∧
    found = ⟨before.utf8ByteSize, before.utf8ByteSize + character.utf8Size⟩

/-- What is found one after the other from a byte offset on.  Every find is the first one that begins
there or later, and the next is looked for from its end on. -/
inductive Successive (occurs : Found → Prop) : Nat → List Found → Prop
  | none {start : Nat} (hnone : ∀ found, occurs found → found.start < start) :
      Successive occurs start []
  | next {start : Nat} {first : Found} {more : List Found} (hoccurs : occurs first)
      (hstart : start ≤ first.start)
      (hfirst : ∀ found, occurs found → start ≤ found.start → first.start ≤ found.start)
      (hmore : Successive occurs first.stop more) : Successive occurs start (first :: more)

/-- A search that finds the characters of the class in every text, one after the other. -/
def Searches (inClass : Char → Bool) (search : String → List Found) : Prop :=
  ∀ text, Successive (Occurs inClass text) 0 (search text)

/-- The characters of the class in a text that begins at the byte offset `start`. -/
def occurrencesFrom (inClass : Char → Bool) (start : Nat) : List Char → List Found
  | [] => []
  | c :: rest =>
    let more := occurrencesFrom inClass (start + c.utf8Size) rest
    if inClass c then ⟨start, start + c.utf8Size⟩ :: more else more

/-- The characters of the class in a text. -/
def occurrences (inClass : Char → Bool) (text : String) : List Found :=
  occurrencesFrom inClass 0 text.toList

end ColumnFormula.Text
