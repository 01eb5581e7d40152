/-
# Text as code units

Expressions are read, cut and measured in sixteen-bit code units: every position
that an error reports counts units, and a character outside the basic plane is two
units, either of which may be named on its own. A text is therefore the list of
its units, and all facts about lists are facts about texts.

Strings of characters are met only at the border. `Text.ofString` writes each
character as its one or two units; `Text.toString` reads them back and puts the
replacement character where half of a pair stands alone.
-/

namespace ElectiveCalculus

/-- One sixteen-bit unit of text. A character outside the basic plane takes two. -/
abbrev CodeUnit := UInt16

/-- A text is the sequence of its code units, so a position in it is a list index. -/
abbrev Text := List CodeUnit

namespace CodeUnit

/-- The first half of a surrogate pair. -/
def isHighSurrogate (unit : CodeUnit) : Bool := 0xD800 ≤ unit && unit ≤ 0xDBFF

/-- The second half of a surrogate pair. -/
def isLowSurrogate (unit : CodeUnit) : Bool := 0xDC00 ≤ unit && unit ≤ 0xDFFF

/-- The sign between the members of a written list. -/
def comma : CodeUnit := 0x2C

/-- The character that a unit spells when it stands alone; half of a pair spells
none and is shown as the replacement character. -/
def toChar (unit : CodeUnit) : Char :=
  if unit.isHighSurrogate || unit.isLowSurrogate then '\uFFFD' else Char.ofNat unit.toNat

/-- The character that the two halves of a surrogate pair spell together. -/
def pairToChar (high low : CodeUnit) : Char :=
  Char.ofNat (0x10000 + (high.toNat - 0xD800) * 0x400 + (low.toNat - 0xDC00))

end CodeUnit

namespace Text

/-- The units of one character: itself in the basic plane, a surrogate pair beyond. -/
def ofChar (char : Char) : Text :=
  if char.toNat < 0x10000 then
    [UInt16.ofNat char.toNat]
  else
    let offset := char.toNat - 0x10000
    [UInt16.ofNat (0xD800 + offset / 0x400), UInt16.ofNat (0xDC00 + offset % 0x400)]

/-- The units of a string, character by character. -/
def ofString (string : String) : Text := string.toList.flatMap ofChar

instance : Coe String Text := ⟨ofString⟩

/-- The characters that a text spells. A surrogate pair is one character, and half
of a pair on its own is the replacement character. -/
def toChars : Text → List Char
  | [] => []
  | [unit] => [unit.toChar]
  | first :: second :: rest =>
    if first.isHighSurrogate && second.isLowSurrogate then
      CodeUnit.pairToChar first second :: toChars rest
    else
      first.toChar :: toChars (second :: rest)

/-- The string that a text spells. -/
def toString (text : Text) : String := String.ofList (toChars text)

/-- The decimal digits of a natural number. -/
def ofNat (number : Nat) : Text := ofString number.repr

/-- Several texts in one, with `separator` between neighbours. -/
def join (separator : Text) (texts : List Text) : Text := separator.intercalate texts

/-- A list of texts as messages show it: in square brackets, after commas. -/
def bracketed (texts : List Text) : Text := "[" ++ join ", " texts ++ "]"

/-- The pieces of a text between the occurrences of a separating unit. There is one
piece more than there are separators, so the empty text has one empty piece. -/
def pieces (separator : CodeUnit) : Text → List Text
  | [] => [[]]
  | unit :: rest =>
    if unit = separator then [] :: pieces separator rest
    else
      match pieces separator rest with
      | [] => [[unit]]
      | piece :: others => (unit :: piece) :: others

/-- What a text goes on with behind an opening, if it begins with that opening. -/
def after? : (opening text : Text) → Option Text
  | [], text => some text
  | _ :: _, [] => none
  | unit :: opening, first :: text => if unit = first then after? opening text else none

/-- A text begins with an opening exactly when it is the opening and what goes on. -/
theorem after?_eq_some_iff {opening text rest : Text} :
    after? opening text = some rest ↔ text = opening ++ rest := by
  induction opening generalizing text with
  | nil => simp [after?]
  | cons unit opening ih =>
    cases text with
    | nil => simp [after?]
    | cons first text =>
      by_cases same : unit = first
      · simp [after?, same, ih]
      · have other : first ≠ unit := Ne.symm same
        simp [after?, same, other]

end Text

end ElectiveCalculus
