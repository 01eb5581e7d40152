/-
# Whole numbers as doubles

Numbers that come from outside are held in double precision, which has fifty-three
significant bits and ends below two to the power 1024. A whole number is rounded to the
nearest double, and a double is written in the fewest decimal digits that are rounded back to
it: a number of up to twenty-one digits in full, with zeros for the digits that were not
needed, and a larger one with an exponent.
-/

import ElectiveCalculus.Text.Basic

namespace ElectiveCalculus.Binary64

/-- The number of significant bits of a double. -/
def precision : Nat := 53

/-- The largest magnitude of the exponent of a power of two that is above zero as a
double. -/
def smallestExponent : Nat := 1074

/-- The double nearest to a natural number, a tie going to the even significand. There is
none when the nearest one would have to be as large as two to the power 1024, past the
largest finite double. -/
def nearest (number : Nat) : Option Nat :=
  let spacing := 1 <<< (number.log2 + 1 - precision)
  let below := number / spacing
  let remainder := number % spacing
  let roundsUp := 2 * remainder > spacing || (2 * remainder == spacing && below % 2 == 1)
  let rounded := (if roundsUp then below + 1 else below) * spacing
  if rounded < 1 <<< 1024 then some rounded else none

/-- The multiple of a power of ten that is nearest to a double among the two next to it, as
long as it is rounded back to the double. -/
def readingBack (value spacing : Nat) : Option Nat :=
  let below := value / spacing * spacing
  let above := below + spacing
  let candidates := if value - below ≤ above - value then [below, above] else [above, below]
  candidates.find? fun candidate => nearest candidate == some value

/-- The number with the fewest significant digits that is rounded back to a double, and of
several the nearest one. Seventeen digits are enough for every double. -/
def shortest (value : Nat) : Nat :=
  let digits := (Nat.toDigits 10 value).length
  let found := (List.range' 1 17).findSome? fun kept =>
    readingBack value (Nat.pow 10 (digits - kept))
  found.getD value

/-- The largest number of digits that are written in full. -/
def mostDigits : Nat := 21

/-- A natural number in digits, with an exponent when it has too many of them. -/
def layout (number : Nat) : Text :=
  let digits := Nat.toDigits 10 number
  if digits.length ≤ mostDigits then
    digits.flatMap Text.ofChar
  else
    let significant := (digits.reverse.dropWhile (· == '0')).reverse
    let leading := (significant.take 1).flatMap Text.ofChar
    let others := (significant.drop 1).flatMap Text.ofChar
    let fraction : Text := if others.isEmpty then [] else "." ++ others
    leading ++ fraction ++ "e+" ++ Text.ofNat (digits.length - 1)

/-- A whole number as the double nearest to it is written. -/
def text (number : Int) : Text :=
  let size :=
    match nearest number.natAbs with
    | some value => layout (shortest value)
    | none => "Infinity"
  if number < 0 then "-" ++ size else size

end ElectiveCalculus.Binary64
