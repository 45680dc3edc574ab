/-!
# Strings in JSON

How a text is written between quotation marks and read back.  Writing escapes the two characters that
would end or garble the string and the control characters below the space, the usual five of them by
a letter and the rest by their number.  Reading also knows the escapes that writing never uses: the
solidus, numbers for any character, and pairs of surrogates for characters beyond U+FFFF.  It works in
units, a character's number or an escaped number, and joins pairs afterwards, so that an unpaired
surrogate is noticed only where a text is asked for.
-/

namespace ColumnFormula.Json

/-! ## Writing -/

/-- A control character by its number, in four lower-case digits. -/
def escapeNumber (n : Nat) : List Char :=
  ['\\', 'u', '0', '0', (n / 16).digitChar, (n % 16).digitChar]

/-- A character as it is written in a string. -/
def escape (c : Char) : List Char :=
  if c = '"' then ['\\', '"']
  else if c = '\\' then ['\\', '\\']
  else if c = '\x08' then ['\\', 'b']
  else if c = '\t' then ['\\', 't']
  else if c = '\n' then ['\\', 'n']
  else if c = '\x0c' then ['\\', 'f']
  else if c = '\r' then ['\\', 'r']
  else if c.toNat < 0x20 then escapeNumber c.toNat
  else [c]

/-- What an unpaired surrogate is written as. -/
def unpaired : List Char := ['\\', 'u', 'd', '8', '0', '0']

/-- A string in its quotation marks. -/
def quoted (text : Option String) : List Char :=
  '"' :: (match text with
    | some text => text.toList.flatMap escape
    | none => unpaired) ++ ['"']

/-! ## Reading -/

/-- The value of a hexadecimal digit of either case. -/
def hexValue? (c : Char) : Option Nat :=
  if '0' ≤ c ∧ c ≤ '9' then some (c.toNat - '0'.toNat)
  else if 'a' ≤ c ∧ c ≤ 'f' then some (c.toNat - 'a'.toNat + 10)
  else if 'A' ≤ c ∧ c ≤ 'F' then some (c.toNat - 'A'.toNat + 10)
  else none

/-- The number that four hexadecimal digits stand for. -/
def hexValue4? (a b c d : Char) : Option Nat := do
  let a ← hexValue? a
  let b ← hexValue? b
  let c ← hexValue? c
  let d ← hexValue? d
  return ((a * 16 + b) * 16 + c) * 16 + d

/-- The unit that a letter behind a backslash stands for. -/
def escaped? (c : Char) : Option Nat :=
  if c = '"' ∨ c = '\\' ∨ c = '/' then some c.toNat
  else if c = 'b' then some 0x08
  else if c = 't' then some 0x09
  else if c = 'n' then some 0x0A
  else if c = 'f' then some 0x0C
  else if c = 'r' then some 0x0D
  else none

/-- Puts a unit in front of what was read behind it. -/
def withUnit (unit : Nat) (read : Option (List Nat × List Char)) : Option (List Nat × List Char) :=
  read.map fun (units, rest) => (unit :: units, rest)

/-- Reads units up to the closing quotation mark, and gives what follows it. -/
def readUnits : List Char → Option (List Nat × List Char)
  | [] => none
  | '"' :: rest => some ([], rest)
  | '\\' :: 'u' :: a :: b :: c :: d :: rest =>
    hexValue4? a b c d >>= fun unit => withUnit unit (readUnits rest)
  | '\\' :: c :: rest => escaped? c >>= fun unit => withUnit unit (readUnits rest)
  | c :: rest => if c.toNat < 0x20 then none else withUnit c.toNat (readUnits rest)

/-- The first half of a pair. -/
def isLeadSurrogate (unit : Nat) : Bool :=
  0xD800 ≤ unit && unit < 0xDC00

/-- The second half of a pair. -/
def isTrailSurrogate (unit : Nat) : Bool :=
  0xDC00 ≤ unit && unit < 0xE000

/-- The character that a pair of surrogates stands for. -/
def pairValue (lead trail : Nat) : Char :=
  Char.ofNat (0x10000 + (lead - 0xD800) * 0x400 + (trail - 0xDC00))

/-- The text that units stand for, unless a surrogate among them has no partner. -/
def joinUnits : List Nat → Option (List Char)
  | [] => some []
  | unit :: rest =>
    if isLeadSurrogate unit then
      match rest with
      | [] => none
      | trail :: rest =>
        if isTrailSurrogate trail then (joinUnits rest).map (pairValue unit trail :: ·) else none
    else if isTrailSurrogate unit then none
    else (joinUnits rest).map (Char.ofNat unit :: ·)

/-- Reads a string from behind its opening quotation mark. -/
def readString (text : List Char) : Option (Option String × List Char) :=
  (readUnits text).map fun (units, rest) => ((joinUnits units).map String.ofList, rest)

theorem readUnits_length {text : List Char} {units : List Nat} {rest : List Char}
    (h : readUnits text = some (units, rest)) : rest.length < text.length := by
  fun_induction readUnits text generalizing units with
  | case1 => cases h
  | case2 rest' => simp_all
  | case3 a b c d rest' ih =>
    obtain ⟨unit, _, hread⟩ := Option.bind_eq_some_iff.1 h
    obtain ⟨⟨us, r⟩, hr, heq⟩ := Option.map_eq_some_iff.1 hread
    simp only [Prod.mk.injEq] at heq
    obtain ⟨_, rfl⟩ := heq
    have := ih hr
    simp only [List.length_cons]
    omega
  | case4 c rest' _ ih =>
    obtain ⟨unit, _, hread⟩ := Option.bind_eq_some_iff.1 h
    obtain ⟨⟨us, r⟩, hr, heq⟩ := Option.map_eq_some_iff.1 hread
    simp only [Prod.mk.injEq] at heq
    obtain ⟨_, rfl⟩ := heq
    have := ih hr
    simp only [List.length_cons]
    omega
  | case5 => cases h
  | case6 c rest' _ _ _ _ ih =>
    obtain ⟨⟨us, r⟩, hr, heq⟩ := Option.map_eq_some_iff.1 h
    simp only [Prod.mk.injEq] at heq
    obtain ⟨_, rfl⟩ := heq
    have := ih hr
    simp only [List.length_cons]
    omega

theorem readString_length {text : List Char} {s : Option String} {rest : List Char}
    (h : readString text = some (s, rest)) : rest.length < text.length := by
  obtain ⟨⟨units, r⟩, hread, heq⟩ := Option.map_eq_some_iff.1 h
  simp only [Prod.mk.injEq] at heq
  obtain ⟨_, rfl⟩ := heq
  exact readUnits_length hread

end ColumnFormula.Json
