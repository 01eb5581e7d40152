/-
# Reading expressions

A text is read in ranges. The first term of a range is split off: a letter and a digit are
one unit, and a complement reaches to the parenthesis that closes it, which is found by
counting parentheses alone before anything inside is read. What stands between is a range
of its own, and what follows the term is the rest of the range, whose expression becomes
the right factor of a product.

Because the closing parenthesis is sought first, an opening one that nothing closes is
reported before any fault inside it. Every fault is reported at the place where the range
or the term at fault begins, counted in code units of the whole text.
-/

import ElectiveCalculus.Expr.Rendering

namespace ElectiveCalculus

/-- What is wrong with a text that should be an expression or an equation. -/
inductive ParseFault where
  | expectedExpression
  | expectedComplement
  | unbalancedParentheses
  | unexpectedUnit (unit : CodeUnit)
  | expectedEqualsSign
  | unexpectedEqualsSign
  deriving DecidableEq, Repr

/-- A fault of a text, and the position in it at which the fault was found. -/
structure ParseError where
  fault : ParseFault
  input : Text
  position : Nat
  deriving DecidableEq, Repr

/-- A fault in words. -/
def ParseFault.description : ParseFault → Text
  | .expectedExpression => "Expected expression"
  | .expectedComplement => "Expected '(1-'"
  | .unbalancedParentheses => "Unbalanced parentheses"
  | .unexpectedUnit unit => "Unexpected character '" ++ [unit] ++ "'"
  | .expectedEqualsSign => "Expected '='"
  | .unexpectedEqualsSign => "Unexpected '='"

/-- A parse error in words. -/
def ParseError.message (error : ParseError) : Text :=
  error.fault.description ++ " at position " ++ Text.ofNat error.position ++ " in '" ++
    error.input ++ "'"

/-- Cuts a text at the parenthesis that closes the innermost but `nested` of the
complements open before it. The result is what stands before that parenthesis and what
stands after it; there is none when the text ends first. -/
def splitClosing (nested : Nat) : Text → Option (Text × Text)
  | [] => none
  | unit :: rest =>
    if unit = CodeUnit.openParen then
      (splitClosing (nested + 1) rest).map fun (inside, after) => (unit :: inside, after)
    else if unit = CodeUnit.closeParen then
      if nested = 0 then some ([], rest)
      else (splitClosing (nested - 1) rest).map fun (inside, after) => (unit :: inside, after)
    else
      (splitClosing nested rest).map fun (inside, after) => (unit :: inside, after)

/-- The first term of a range before its inside is read. -/
inductive Head where
  | letter (unit : CodeUnit)
  | digit (value : Bool)
  /-- A complement, as the text between its opening and its closing parenthesis. -/
  | complement (inside : Text)
  deriving DecidableEq, Repr

/-- The text that the first term of a range takes. -/
def Head.text : Head → Text
  | .letter unit => [unit]
  | .digit value => [if value then CodeUnit.digitOne else CodeUnit.digitZero]
  | .complement inside => complementOpening ++ inside ++ [CodeUnit.closeParen]

/-- How many units of the text the first term takes. -/
def Head.width : Head → Nat
  | .letter _ => 1
  | .digit _ => 1
  | .complement inside => complementOpening.length + inside.length + 1

/-- Splits the first term off a range, and returns it with the rest of the range. -/
def splitTerm : Text → Except ParseFault (Head × Text)
  | [] => .error .expectedExpression
  | unit :: rest =>
    if unit = CodeUnit.openParen then
      match Text.after? complementOpening (unit :: rest) with
      | none => .error .expectedComplement
      | some opened =>
        match splitClosing 0 opened with
        | none => .error .unbalancedParentheses
        | some (inside, after) => .ok (.complement inside, after)
    else if unit.isLetter then
      .ok (.letter unit, rest)
    else if unit = CodeUnit.digitZero then
      .ok (.digit false, rest)
    else if unit = CodeUnit.digitOne then
      .ok (.digit true, rest)
    else
      .error (.unexpectedUnit unit)

/-- What stands before the closing parenthesis, that parenthesis and what stands after it
make up the text again. -/
theorem eq_append_of_splitClosing {nested : Nat} {text inside after : Text}
    (split : splitClosing nested text = some (inside, after)) :
    text = inside ++ CodeUnit.closeParen :: after := by
  induction text generalizing nested inside after with
  | nil => simp [splitClosing] at split
  | cons unit rest ih =>
    have deeper {level : Nat}
        (found : (splitClosing level rest).map
          (fun (inside, after) => (unit :: inside, after)) = some (inside, after)) :
        unit :: rest = inside ++ CodeUnit.closeParen :: after := by
      obtain ⟨⟨inner, outer⟩, split, same⟩ := Option.map_eq_some_iff.mp found
      cases same
      rw [ih split]
      rfl
    rw [splitClosing] at split
    split at split
    · exact deeper split
    · split at split
      · next closes =>
        split at split
        · cases split
          rw [closes]
          rfl
        · exact deeper split
      · exact deeper split

/-- The width of a term is the length of its text. -/
theorem Head.length_text (head : Head) : head.text.length = head.width := by
  cases head <;> simp [Head.text, Head.width, Nat.add_assoc]

/-- A split takes the first term off the range and leaves the rest as it was. -/
theorem eq_append_of_splitTerm {range rest : Text} {head : Head}
    (split : splitTerm range = .ok (head, rest)) : range = head.text ++ rest := by
  match range with
  | [] => simp [splitTerm] at split
  | unit :: tail =>
    rw [splitTerm] at split
    split at split
    · split at split
      · cases split
      · next opened opens =>
        split at split
        · cases split
        · next inside after closed =>
          cases split
          rw [Text.after?_eq_some_iff.mp opens, eq_append_of_splitClosing closed]
          simp [Head.text]
    · split at split
      · cases split; rfl
      · split at split
        · next isZero => cases split; rw [isZero]; rfl
        · split at split
          · next isOne => cases split; rw [isOne]; rfl
          · cases split

/-- What is left of a range after its first term is shorter than the range. -/
theorem length_rest_lt_of_splitTerm {range rest : Text} {head : Head}
    (split : splitTerm range = .ok (head, rest)) : rest.length < range.length := by
  have lengths := congrArg List.length (eq_append_of_splitTerm split)
  rw [List.length_append, head.length_text] at lengths
  cases head <;> simp only [Head.width] at lengths <;> omega

/-- What stands between the parentheses of the first term is shorter than the range. -/
theorem length_inside_lt_of_splitTerm {range rest inside : Text}
    (split : splitTerm range = .ok (.complement inside, rest)) :
    inside.length < range.length := by
  have lengths := congrArg List.length (eq_append_of_splitTerm split)
  rw [List.length_append, Head.length_text, Head.width] at lengths
  omega

/-- Reads the range of `input` that begins at `start`. The first term is read before what
follows it, so of two faults the one in the earlier term is reported. -/
def parseRange (input : Text) (start : Nat) (range : Text) : Except ParseError Expr :=
  match _split : splitTerm range with
  | .error fault => .error ⟨fault, input, start⟩
  | .ok (head, rest) => do
    let first ← (match _kind : head with
      | .letter unit => .ok (.sym [unit])
      | .digit value => .ok (.const value)
      | .complement inside =>
        (parseRange input (start + complementOpening.length) inside).map Expr.not)
    if rest = [] then
      .ok first
    else
      (parseRange input (start + head.width) rest).map (Expr.product first)
termination_by range.length
decreasing_by
  · subst _kind
    exact length_inside_lt_of_splitTerm _split
  · exact length_rest_lt_of_splitTerm _split

/-- Reads the first term of a range that begins at `start`; only a complement has anything
inside to read. -/
def parseHead (input : Text) (start : Nat) : Head → Except ParseError Expr
  | .letter unit => .ok (.sym [unit])
  | .digit value => .ok (.const value)
  | .complement inside =>
    (parseRange input (start + complementOpening.length) inside).map Expr.not

/-- A range without a first term is refused where it begins. -/
theorem parseRange_of_splitTerm_error {input range : Text} {start : Nat} {fault : ParseFault}
    (split : splitTerm range = .error fault) :
    parseRange input start range = .error ⟨fault, input, start⟩ := by
  rw [parseRange]
  split
  · next found =>
    rw [split] at found
    cases found
    rfl
  · next found =>
    rw [split] at found
    cases found

/-- A range is read as its first term and, when more follows, as the product of that term
with what follows. -/
theorem parseRange_of_splitTerm {input range rest : Text} {start : Nat} {head : Head}
    (split : splitTerm range = .ok (head, rest)) :
    parseRange input start range =
      (parseHead input start head).bind fun first =>
        if rest = [] then .ok first
        else (parseRange input (start + head.width) rest).map (Expr.product first) := by
  rw [parseRange]
  split
  · next found =>
    rw [split] at found
    cases found
  · next found =>
    rw [split] at found
    cases found
    cases head <;> rfl

/-- Reads a whole text as one expression. -/
def Expr.parse (input : Text) : Except ParseError Expr := parseRange input 0 input

end ElectiveCalculus
