/-
# Blank units and trimming

The units that may pad a side of an equation or a piece of a list: the horizontal
and vertical controls, the Unicode space separators, the two line separators, and
the byte order mark. Trimming removes blanks at the two ends only; a blank inside a
text stays, and is left for a later stage to refuse.
-/

import ElectiveCalculus.Text.Basic

namespace ElectiveCalculus

/-- The blank units as inclusive ranges, in ascending order. -/
def CodeUnit.blankRanges : List (CodeUnit × CodeUnit) :=
  [(0x0009, 0x000D), (0x0020, 0x0020), (0x00A0, 0x00A0), (0x1680, 0x1680), (0x2000, 0x200A),
    (0x2028, 0x2029), (0x202F, 0x202F), (0x205F, 0x205F), (0x3000, 0x3000), (0xFEFF, 0xFEFF)]

/-- A unit that trimming removes. -/
def CodeUnit.isBlank (unit : CodeUnit) : Bool :=
  blankRanges.any fun (first, last) => first ≤ unit && unit ≤ last

namespace Text

/-- A text without the blanks it opens with. -/
def dropBlanks (text : Text) : Text := text.dropWhile CodeUnit.isBlank

/-- A text without the blanks at its two ends. -/
def trim (text : Text) : Text := (dropBlanks (dropBlanks text).reverse).reverse

end Text

end ElectiveCalculus
