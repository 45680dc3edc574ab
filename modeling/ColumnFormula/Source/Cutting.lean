import ColumnFormula.Source
import ColumnFormula.Text.Offset

/-!
# Sources cut out of their expression

The characters of a source and their places, gathered in one pass over what a search finds in the
expression.  The search answers in bytes, places are counted in characters: what stands between two finds
is cut out by byte offsets and counted character by character, and a find counts as one character more.
Characters and places are gathered apart from each other, and nothing is gathered if an offset at which
the expression is to be cut is no border of a character.
-/

namespace ColumnFormula.Source

/-- What has been gathered of an expression. -/
structure Cutting where
  input : Array Char
  places : Array Nat
  /-- How many characters of the expression have been gone over. -/
  index : Nat
  /-- The byte offset behind the last find. -/
  keptFrom : Nat
  deriving DecidableEq, Repr

namespace Cutting

/-- Nothing has been gone over. -/
def initial : Cutting :=
  ⟨#[], #[], 0, 0⟩

def keepChar (c : Cutting) (character : Char) : Cutting :=
  { c with
    input := c.input.push character
    places := c.places.push c.index
    index := c.index + 1 }

/-- Keeps every character of a run. -/
def keep (c : Cutting) (run : String) : Cutting :=
  run.toList.foldl keepChar c

/-- Keeps the run in front of a find, and goes over the find. -/
def passOver (expression : String) (c : Cutting) (found : Text.Found) : Option Cutting := do
  let run ← Text.slice? expression c.keptFrom found.start
  let kept := c.keep run
  return { kept with index := kept.index + 1, keptFrom := found.stop }

/-- Keeps the run behind the last find. -/
def finish (expression : String) (c : Cutting) : Option Cutting := do
  let run ← Text.slice? expression c.keptFrom expression.utf8ByteSize
  return c.keep run

/-- Goes over all that is found. -/
def passAll (expression : String) (c : Cutting) (found : List Text.Found) : Option Cutting := do
  let passed ← found.foldlM (passOver expression) c
  passed.finish expression

/-- What is gathered of an expression when `search` says where the line controls are. -/
def ofSearch? (search : String → List Text.Found) (expression : String) : Option Cutting :=
  initial.passAll expression (search expression)

/-- The characters with their places. -/
def marks (c : Cutting) : Array Mark :=
  Array.zipWith Mark.mk c.input c.places

end Cutting

end ColumnFormula.Source
