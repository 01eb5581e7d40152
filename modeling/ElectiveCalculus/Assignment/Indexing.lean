/-
# Row numbers as machine words and as floating point numbers

Three conversions between assignments and row numbers are offered to callers who hold
plain numbers. Each keeps the width limits of the number format it works in, and says so:
`ofIndex` reads bits from a thirty-two bit word and starts over at its first bit past the
thirty-second, `toIndex` adds up in double precision, and `enumerate` counts up to a power
of two that is itself a double.

Within thirty-two bits the first and the last agree with `Assignment.all`, and within
fifty-three bits the second is `Assignment.row`. Beyond them they differ. Tables are made
over `all` and indexed by `row`, and as far as the number formats reach they are the tables
that these conversions make.
-/

import ElectiveCalculus.Assignment.Basic
import ElectiveCalculus.Binary64

namespace ElectiveCalculus

namespace Assignment

/-- The bit of a number at a place counted from its last bit. The number is taken as a signed
word of thirty-two bits and shifted right with its sign, as far as the last five bits of the
place say, and of what is left the last bit counts. -/
def wordBit (index : Int) (place : Nat) : Bool :=
  (BitVec.ofInt 32 index).sshiftRight (place % 32) &&& 1#32 != 0#32

/-- The assignment of a width whose bits are those of a number, from the place that the first
bit has down to the last place. -/
def ofIndex (index : Int) (width : Nat) : Assignment :=
  (List.range width).reverse.map (wordBit index)

/-- The row number of an assignment reckoned in double precision from the first bit on.
`none` stands for infinity, which a list of more than 1024 bits can reach. -/
def toIndex (assignment : Assignment) : Option Nat :=
  assignment.foldlM (fun total bit => Binary64.nearest (2 * total + bit.toNat)) 0

/-- The first `count` of the assignments counted from index zero up to, and without, two
to the power of the width. A negative width leaves a fraction of one, which index zero
alone is below, as long as that fraction is not zero as a double. -/
def enumerate (width : Int) (count : Nat) : List Assignment :=
  let available :=
    if 0 ≤ width then 1 <<< min width.toNat count
    else if -(Binary64.smallestExponent : Int) ≤ width then 1
    else 0
  (List.range (min count available)).map fun (index : Nat) => ofIndex index width.toNat

/-- An assignment read off a number has the width that was asked for. -/
@[simp] theorem length_ofIndex (index : Int) (width : Nat) :
    (ofIndex index width).length = width := by
  simp [ofIndex]

end Assignment

end ElectiveCalculus
