/-
# Assignments and table rows

An assignment gives one bit to each of a list of variables. Read as a binary number whose
first bit is the most significant one, it is the row of a complete table that belongs to
it, so the assignments in ascending order of their rows are the bit lists in lexicographic
order.

`all` lists the assignments of a width by recursion on the width, and `row` reads a row
number back. The module `Assignment.Lemmas` shows that the two agree, which is what makes a
table built by mapping over `all` readable at `row`.
-/

namespace ElectiveCalculus

/-- One bit for each variable of a list, in the order of the list. -/
abbrev Assignment := List Bool

namespace Assignment

/-- The row of an assignment in a complete table: its bits as a binary number, the first
bit most significant. -/
def row (assignment : Assignment) : Nat :=
  assignment.foldl (fun total bit => 2 * total + bit.toNat) 0

/-- Every assignment of a given width, in ascending order of the rows. -/
def all : Nat → List Assignment
  | 0 => [[]]
  | width + 1 => (all width).map (false :: ·) ++ (all width).map (true :: ·)

end Assignment

end ElectiveCalculus
