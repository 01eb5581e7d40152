/-
# Equations with blanks around their sides

An equation is accepted exactly when it is two expressions on the two sides of one equals
sign, with any blanks around each. Neither a blank nor an equals sign is a unit of the
notation, so there is no doubt where a side begins and ends, and none is swallowed by a side.

What is refused is refused in one of three places. A missing or a second equals sign is
reported in the whole text. Otherwise the fault is that of a trimmed side, the left one before
the right one, and its position counts from the start of that side.
-/

import ElectiveCalculus.Equation.Sides
import ElectiveCalculus.Proofs.FaultDiagnosis
import ElectiveCalculus.Proofs.InferenceFaults
import ElectiveCalculus.Proofs.Reachability
import ElectiveCalculus.Proofs.Trimming
import Mathlib

namespace ElectiveCalculus

/-! ## Accepted texts -/

namespace CodeUnit

theorem isBlank_of_isNotation {unit : CodeUnit} (hunit : Grammar.isNotation unit = true) :
    unit.isBlank = false := by
  rw [Grammar.isNotation, Bool.or_eq_true] at hunit
  rcases hunit with hletter | hsign
  · obtain ⟨place, hplace, hunit⟩ := List.mem_map.mp
      (@SymbolName.mem_alphabet [unit] hletter)
    obtain rfl := List.singleton_inj.mp hunit
    have hnone : ∀ place ∈ List.range 26, isBlank (UInt16.ofNat (0x61 + place)) = false := by
      decide
    exact hnone place hplace
  · simp only [List.contains_iff_mem, List.mem_cons, List.not_mem_nil, or_false] at hsign
    rcases hsign with rfl | rfl | rfl | rfl | rfl <;> rfl

end CodeUnit

namespace Expr

section Accepted

variable {side : Text} {expr : Expr}

theorem isNotation_of_parse {unit : CodeUnit} (hread : Expr.parse side = .ok expr)
    (hunit : unit ∈ side) : Grammar.isNotation unit = true := by
  obtain ⟨phrase, rfl⟩ := isReadable_iff_derivable.mp ⟨expr, hread⟩
  exact phrase.isNotation_of_mem_text hunit

theorem sign_not_mem_of_parse (hread : Expr.parse side = .ok expr) :
    CodeUnit.equalsSign ∉ side := by
  intro hsign
  exact absurd (isNotation_of_parse hread hsign) (by decide)

/-- Blanks around an accepted text are all of the blanks at its ends. -/
theorem pads_of_parse {before after : Text} (hread : Expr.parse side = .ok expr)
    (hbefore : Text.IsBlank before) (hafter : Text.IsBlank after) :
    Text.Pads (before ++ side ++ after) side where
  around := ⟨before, after, hbefore, hafter, rfl⟩
  first := fun _ hunit =>
    CodeUnit.isBlank_of_isNotation (isNotation_of_parse hread (List.mem_of_mem_head? hunit))
  last := fun _ hunit =>
    CodeUnit.isBlank_of_isNotation (isNotation_of_parse hread (List.mem_of_mem_getLast? hunit))

/-- The fault of a text that is not accepted is placed in that text. -/
theorem fault_in_text {cause : ParseError} (hread : Expr.parse side = .error cause) :
    cause.input = side ∧ cause.position ≤ side.length := by
  obtain ⟨opening, refused, closing, hvisited, -, hcause⟩ :=
    exists_visited_of_error side .whole hread
  rw [hcause]
  refine ⟨rfl, ?_⟩
  rw [hvisited.input_eq, List.length_append]
  exact Nat.le_add_right _ _

end Accepted

end Expr

namespace Sides

/-! ## One equals sign -/

/-- A text is cut into two at its only equals sign. -/
structure IsCut (input left right : Text) : Prop where
  parts : input = left ++ CodeUnit.equalsSign :: right
  left : CodeUnit.equalsSign ∉ left
  right : CodeUnit.equalsSign ∉ right

theorem sign_not_mem_of_isBlank {blanks : Text} (hblanks : Text.IsBlank blanks) :
    CodeUnit.equalsSign ∉ blanks := by
  intro hsign
  exact absurd (hblanks _ hsign) (by decide)

/-- No unit of an accepted text and none of the blanks around it is an equals sign. -/
theorem sign_not_mem_padded {before side after : Text} {expr : Expr}
    (hread : Expr.parse side = .ok expr) (hbefore : Text.IsBlank before)
    (hafter : Text.IsBlank after) : CodeUnit.equalsSign ∉ before ++ side ++ after := by
  simp only [List.mem_append, not_or]
  exact ⟨⟨sign_not_mem_of_isBlank hbefore, Expr.sign_not_mem_of_parse hread⟩,
    sign_not_mem_of_isBlank hafter⟩

theorem bne_sign_of_not_mem {text : Text} (htext : CodeUnit.equalsSign ∉ text) :
    ∀ unit ∈ text, (unit != CodeUnit.equalsSign) = true := by
  intro unit hunit
  exact bne_iff_ne.mpr (ne_of_mem_of_not_mem hunit htext)

theorem findIdx?_sign_of_not_mem {text : Text} (htext : CodeUnit.equalsSign ∉ text) :
    text.findIdx? (· == CodeUnit.equalsSign) = none := by
  rw [List.findIdx?_eq_none_iff]
  intro unit hunit
  exact beq_false_of_ne (ne_of_mem_of_not_mem hunit htext)

theorem takeWhile_append_sign {left : Text} (hleft : CodeUnit.equalsSign ∉ left)
    (right : Text) :
    (left ++ CodeUnit.equalsSign :: right).takeWhile (· != CodeUnit.equalsSign) = left := by
  rw [List.takeWhile_append_of_pos (bne_sign_of_not_mem hleft)]
  simp

theorem dropWhile_append_sign {left : Text} (hleft : CodeUnit.equalsSign ∉ left)
    (right : Text) :
    (left ++ CodeUnit.equalsSign :: right).dropWhile (· != CodeUnit.equalsSign) =
      CodeUnit.equalsSign :: right := by
  rw [List.dropWhile_append_of_pos (bne_sign_of_not_mem hleft)]
  simp

theorem split_of_not_mem {input : Text} (hsign : CodeUnit.equalsSign ∉ input) :
    split input = .error ⟨.expectedEqualsSign, input, input.length⟩ := by
  have hdrop : input.dropWhile (· != CodeUnit.equalsSign) = [] :=
    List.dropWhile_eq_nil_iff.mpr (bne_sign_of_not_mem hsign)
  rw [split, hdrop]

theorem split_of_isCut {input left right : Text} (hcut : IsCut input left right) :
    split input = .ok ⟨Text.trim left, Text.trim right⟩ := by
  simp only [split, hcut.parts, takeWhile_append_sign hcut.left, dropWhile_append_sign hcut.left,
    findIdx?_sign_of_not_mem hcut.right]

theorem split_of_second {left middle : Text} (hleft : CodeUnit.equalsSign ∉ left)
    (hmiddle : CodeUnit.equalsSign ∉ middle) (rest : Text) :
    split (left ++ CodeUnit.equalsSign :: (middle ++ CodeUnit.equalsSign :: rest)) =
      .error ⟨.unexpectedEqualsSign,
        left ++ CodeUnit.equalsSign :: (middle ++ CodeUnit.equalsSign :: rest),
        (left ++ CodeUnit.equalsSign :: middle).length⟩ := by
  have hsecond : (middle ++ CodeUnit.equalsSign :: rest).findIdx? (· == CodeUnit.equalsSign) =
      some middle.length := by
    rw [List.findIdx?_append, findIdx?_sign_of_not_mem hmiddle, List.findIdx?_cons]
    simp
  have hposition : (left ++ CodeUnit.equalsSign :: middle).length =
      left.length + 1 + middle.length := by
    rw [List.length_append, List.length_cons]
    omega
  simp only [split, takeWhile_append_sign hleft, dropWhile_append_sign hleft, hsecond, hposition]

/-- A text has no equals sign, one, or a second one behind the first. -/
theorem isCut_cases (input : Text) :
    CodeUnit.equalsSign ∉ input ∨ (∃ left right, IsCut input left right) ∨
      ∃ left middle rest, CodeUnit.equalsSign ∉ left ∧ CodeUnit.equalsSign ∉ middle ∧
        input = left ++ CodeUnit.equalsSign :: (middle ++ CodeUnit.equalsSign :: rest) := by
  by_cases hfirst : CodeUnit.equalsSign ∈ input
  · obtain ⟨left, behind, rfl, hleft⟩ := List.eq_append_cons_of_mem hfirst
    by_cases hsecond : CodeUnit.equalsSign ∈ behind
    · obtain ⟨middle, rest, rfl, hmiddle⟩ := List.eq_append_cons_of_mem hsecond
      exact Or.inr (Or.inr ⟨left, middle, rest, hleft, hmiddle, rfl⟩)
    · exact Or.inr (Or.inl ⟨left, behind, rfl, hleft, hsecond⟩)
  · exact Or.inl hfirst

theorem split_eq_ok_iff {input : Text} {sides : Sides Text} :
    split input = .ok sides ↔
      ∃ left right, IsCut input left right ∧ Text.Pads left sides.lhs ∧
        Text.Pads right sides.rhs := by
  apply Iff.intro
  · intro h
    rcases isCut_cases input with hnone | ⟨left, right, hcut⟩ |
      ⟨left, middle, rest, hleft, hmiddle, rfl⟩
    · cases (split_of_not_mem hnone).symm.trans h
    · obtain rfl := Except.ok.inj ((split_of_isCut hcut).symm.trans h)
      exact ⟨left, right, hcut, Text.pads_trim left, Text.pads_trim right⟩
    · cases (split_of_second hleft hmiddle rest).symm.trans h
  · intro h
    rcases h with ⟨left, right, hcut, hlhs, hrhs⟩
    rw [split_of_isCut hcut, Text.trim_of_pads hlhs, Text.trim_of_pads hrhs]

theorem split_eq_error_iff {input : Text} {cause : ParseError} :
    split input = .error cause ↔
      (CodeUnit.equalsSign ∉ input ∧ cause = ⟨.expectedEqualsSign, input, input.length⟩) ∨
        ∃ left middle rest, CodeUnit.equalsSign ∉ left ∧ CodeUnit.equalsSign ∉ middle ∧
          input = left ++ CodeUnit.equalsSign :: (middle ++ CodeUnit.equalsSign :: rest) ∧
            cause = ⟨.unexpectedEqualsSign, input,
              (left ++ CodeUnit.equalsSign :: middle).length⟩ := by
  apply Iff.intro
  · intro h
    rcases isCut_cases input with hnone | ⟨left, right, hcut⟩ |
      ⟨left, middle, rest, hleft, hmiddle, rfl⟩
    · obtain rfl := Except.error.inj ((split_of_not_mem hnone).symm.trans h)
      exact Or.inl ⟨hnone, rfl⟩
    · cases (split_of_isCut hcut).symm.trans h
    · obtain rfl := Except.error.inj ((split_of_second hleft hmiddle rest).symm.trans h)
      exact Or.inr ⟨left, middle, rest, hleft, hmiddle, rfl, rfl⟩
  · intro h
    rcases h with ⟨hnone, rfl⟩ | ⟨left, middle, rest, hleft, hmiddle, rfl, rfl⟩
    · exact split_of_not_mem hnone
    · exact split_of_second hleft hmiddle rest

/-- The sides of a text are cut apart again where they are put together. -/
theorem split_of_split {input : Text} {sides : Sides Text} (hsplit : split input = .ok sides) :
    split (sides.lhs ++ CodeUnit.equalsSign :: sides.rhs) = .ok sides := by
  obtain ⟨left, right, hcut, hlhs, hrhs⟩ := split_eq_ok_iff.mp hsplit
  refine split_eq_ok_iff.mpr ⟨sides.lhs, sides.rhs, ?_, hlhs.self, hrhs.self⟩
  exact ⟨rfl, hlhs.not_mem hcut.left, hrhs.not_mem hcut.right⟩

theorem exists_split_of_count {input : Text} (hcount : input.count CodeUnit.equalsSign = 1) :
    ∃ sides, split input = .ok sides := by
  rcases isCut_cases input with hnone | ⟨left, right, hcut⟩ |
    ⟨left, middle, rest, hleft, hmiddle, rfl⟩
  · rw [List.count_eq_zero_of_not_mem hnone] at hcount
    cases hcount
  · exact ⟨_, split_of_isCut hcut⟩
  · simp only [List.count_append, List.count_cons_self] at hcount
    omega

/-! ## Reading a whole equation -/

/-- A text is two accepted texts with blanks around each, on the two sides of an equals sign,
and they are read as two expressions. -/
def IsPadded (input : Text) (sides : Sides Expr) : Prop :=
  ∃ opening left before after right closing : Text,
    (Text.IsBlank opening ∧ Text.IsBlank before ∧ Text.IsBlank after ∧ Text.IsBlank closing) ∧
      (Expr.parse left = .ok sides.lhs ∧ Expr.parse right = .ok sides.rhs) ∧
        input = opening ++ left ++ before ++
          CodeUnit.equalsSign :: (after ++ right ++ closing)

/-- What a text is refused for as an equation, and the error that says so. -/
inductive EquationFault : Text → ParseError → Prop
  /-- No equals sign is met up to the end. -/
  | noSign {input : Text} (hsign : CodeUnit.equalsSign ∉ input) :
      EquationFault input ⟨.expectedEqualsSign, input, input.length⟩
  /-- A second equals sign is met. -/
  | secondSign {left middle : Text} (rest : Text) (hleft : CodeUnit.equalsSign ∉ left)
      (hmiddle : CodeUnit.equalsSign ∉ middle) :
      EquationFault (left ++ CodeUnit.equalsSign :: (middle ++ CodeUnit.equalsSign :: rest))
        ⟨.unexpectedEqualsSign,
          left ++ CodeUnit.equalsSign :: (middle ++ CodeUnit.equalsSign :: rest),
          (left ++ CodeUnit.equalsSign :: middle).length⟩
  /-- The left side is refused, without the blanks around it. -/
  | left {input left right side : Text} {cause : ParseError} (hcut : IsCut input left right)
      (hleft : Text.Pads left side) (hcause : Expr.parse side = .error cause) :
      EquationFault input cause
  /-- The left side is accepted and the right side is not. -/
  | right {input left right side other : Text} {cause : ParseError}
      (hcut : IsCut input left right) (hleft : Text.Pads left side) (hside : Expr.IsReadable side)
      (hright : Text.Pads right other) (hcause : Expr.parse other = .error cause) :
      EquationFault input cause

variable {input : Text} {settings : Log.Settings}

theorem isPadded_iff {sides : Sides Expr} :
    IsPadded input sides ↔
      ∃ texts : Sides Text, split input = .ok texts ∧ Expr.parse texts.lhs = .ok sides.lhs ∧
        Expr.parse texts.rhs = .ok sides.rhs := by
  apply Iff.intro
  · intro h
    rcases h with ⟨opening, left, before, after, right, closing,
      ⟨hopening, hbefore, hafter, hclosing⟩, ⟨hleft, hright⟩, hinput⟩
    refine ⟨⟨left, right⟩, split_eq_ok_iff.mpr ⟨opening ++ left ++ before,
      after ++ right ++ closing, ⟨hinput, ?_, ?_⟩, Expr.pads_of_parse hleft hopening hbefore,
      Expr.pads_of_parse hright hafter hclosing⟩, hleft, hright⟩
    · exact sign_not_mem_padded hleft hopening hbefore
    · exact sign_not_mem_padded hright hafter hclosing
  · intro h
    rcases h with ⟨texts, hsplit, hlhs, hrhs⟩
    obtain ⟨left, right, hcut, hleft, hright⟩ := split_eq_ok_iff.mp hsplit
    obtain ⟨opening, before, hopening, hbefore, rfl⟩ := hleft.around
    obtain ⟨after, closing, hafter, hclosing, rfl⟩ := hright.around
    exact ⟨opening, texts.lhs, before, after, texts.rhs, closing,
      ⟨hopening, hbefore, hafter, hclosing⟩, ⟨hlhs, hrhs⟩, hcut.parts⟩

theorem outcome_readEquation_eq_ok_iff {sides : Sides Expr} :
    ((readEquation input).run settings).outcome = .ok sides ↔ IsPadded input sides := by
  rw [isPadded_iff, readEquation, Log.Logged.outcome_bind_eq_ok_iff]
  simp only [Log.Logged.run_ofExcept, mapError_eq_ok_iff]
  exact exists_congr fun texts => and_congr_right fun _ => outcome_read_eq_ok_iff

theorem outcome_readEquation_eq_error_iff {error : Error} :
    ((readEquation input).run settings).outcome = .error error ↔
      ∃ cause, error = .parse cause ∧ EquationFault input cause := by
  rw [readEquation, Log.Logged.outcome_bind, bind_eq_error_iff]
  simp only [Log.Logged.run_ofExcept, mapError_eq_ok_iff, mapError_eq_error_iff,
    outcome_read_eq_error_iff]
  apply Iff.intro
  · intro h
    rcases h with ⟨cause, hsplit, rfl⟩ | ⟨texts, hsplit, hread⟩
    · rcases split_eq_error_iff.mp hsplit with ⟨hnone, rfl⟩ |
        ⟨left, middle, rest, hleft, hmiddle, rfl, rfl⟩
      · exact ⟨_, rfl, .noSign hnone⟩
      · exact ⟨_, rfl, .secondSign rest hleft hmiddle⟩
    · obtain ⟨left, right, hcut, hleft, hright⟩ := split_eq_ok_iff.mp hsplit
      rcases hread with ⟨cause, hlhs, rfl⟩ | ⟨hlhs, cause, hrhs, rfl⟩
      · exact ⟨cause, rfl, .left hcut hleft hlhs⟩
      · exact ⟨cause, rfl, .right hcut hleft hlhs hright hrhs⟩
  · intro h
    rcases h with ⟨cause, rfl, hfault⟩
    cases hfault with
    | noSign hsign => exact Or.inl ⟨_, split_of_not_mem hsign, rfl⟩
    | secondSign rest hleft hmiddle => exact Or.inl ⟨_, split_of_second hleft hmiddle rest, rfl⟩
    | @left _ _ right side _ hcut hleft hcause =>
        have hsplit := (@split_eq_ok_iff _ ⟨side, Text.trim right⟩).mpr
          ⟨_, _, hcut, hleft, Text.pads_trim right⟩
        exact Or.inr ⟨_, hsplit, Or.inl ⟨cause, hcause, rfl⟩⟩
    | @right _ _ _ side other _ hcut hleft hside hright hcause =>
        have hsplit := (@split_eq_ok_iff _ ⟨side, other⟩).mpr ⟨_, _, hcut, hleft, hright⟩
        exact Or.inr ⟨_, hsplit, Or.inr ⟨hside, cause, hcause, rfl⟩⟩

/-- A text is read as an equation exactly when two accepted texts stand on the sides of an equals
sign in it, with any blanks around each, and what these are read as is the result. Any other
text is refused for one fault. It is about the whole text when an equals sign is missing or
there is a second one, and otherwise about the first of the two trimmed sides that is refused,
and placed in that side. One equals sign is all that cutting needs, and the two trimmed sides
are cut apart again when they are put together. -/
theorem padded_equations_are_read (input : Text) (settings : Log.Settings) :
    (∀ sides, ((readEquation input).run settings).outcome = .ok sides ↔ IsPadded input sides) ∧
      (∀ error, ((readEquation input).run settings).outcome = .error error ↔
        ∃ cause, error = .parse cause ∧ EquationFault input cause) ∧
      (∀ (side : Text) (cause : ParseError), Expr.parse side = .error cause →
        cause.input = side ∧ cause.position ≤ side.length) ∧
      (input.count CodeUnit.equalsSign = 1 →
        ∃ sides, split input = .ok sides ∧
          split (sides.lhs ++ CodeUnit.equalsSign :: sides.rhs) = .ok sides) := by
  refine ⟨fun sides => outcome_readEquation_eq_ok_iff,
    fun error => outcome_readEquation_eq_error_iff, fun side cause => Expr.fault_in_text, ?_⟩
  intro hcount
  obtain ⟨sides, hsplit⟩ := exists_split_of_count hcount
  exact ⟨sides, hsplit, split_of_split hsplit⟩

/-- In `x =  1? ` the right side is refused where its question mark stands in the trimmed side,
and not where it stands in the whole text. -/
theorem padded_equations_are_read_question_mark :
    ((readEquation "x =  1? ").run .off).outcome =
        .error (.parse ⟨.unexpectedUnit 0x3F, "1?", 1⟩) ∧
      (∀ sides, ¬ IsPadded "x =  1? " sides) ∧
      ∃ sides, split "x =  1? " = .ok sides ∧
        split (sides.lhs ++ CodeUnit.equalsSign :: sides.rhs) = .ok sides := by
  obtain ⟨haccepted, hrefused, -, hsplit⟩ := padded_equations_are_read "x =  1? " .off
  have hcut : IsCut "x =  1? " "x " "  1? " := ⟨by cbv, by decide, by decide⟩
  have hleft : Text.Pads "x " "x" := Text.trim_eq_iff.mp (by cbv)
  have hright : Text.Pads "  1? " "1?" := Text.trim_eq_iff.mp (by cbv)
  have hside : Expr.IsReadable "x" := ⟨.sym "x", by cbv⟩
  have hcause : Expr.parse "1?" = .error ⟨.unexpectedUnit 0x3F, "1?", 1⟩ := by cbv
  have houtcome := (hrefused _).mpr ⟨_, rfl, .right hcut hleft hside hright hcause⟩
  refine ⟨houtcome, ?_, hsplit (by decide)⟩
  intro sides hpadded
  cases ((haccepted sides).mpr hpadded).symm.trans houtcome

end Sides

end ElectiveCalculus
