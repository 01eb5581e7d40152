/-
# Faults and the places they are found at

A text that is not an expression is refused with one fault at one position, and the fault is
a true statement about that position. What stands before the position is the beginning of
some expression, so nothing before it is wrong by itself; and what stands at the position
cannot be the next unit of what the reader expects there.

No parenthesis opened before the position is without its closing one. An opening parenthesis
that nothing closes is therefore reported before any fault behind it, and the first of them
is the one that is reported. A closing parenthesis that nothing opens is met only behind whole
expressions.
-/

import ElectiveCalculus.Proofs.VisitedRanges
import Mathlib

namespace ElectiveCalculus

open Grammar

/-- A text that is accepted as an expression. -/
def Expr.IsReadable (input : Text) : Prop := ∃ expr, Expr.parse input = .ok expr

theorem Expr.isReadable_iff_derivable {input : Text} :
    Expr.IsReadable input ↔ Derivable input := by
  simp only [IsReadable, Expr.parse_eq_ok_iff, Derives, Derivable]
  exact ⟨fun ⟨_, phrase, htext, _⟩ => ⟨phrase, htext⟩,
    fun ⟨phrase, htext⟩ => ⟨_, phrase, htext, rfl⟩⟩

namespace ParseFault

/-- What a fault says about the position that it is reported at. The faults of an equals sign
are none of an expression. -/
def Describes (input : Text) (position : Nat) : ParseFault → Prop
  | .expectedExpression =>
    (input = [] ∧ position = 0) ∨
      complementOpening <:+ input.take position ∧ input[position]? = some CodeUnit.closeParen
  | .expectedComplement =>
    input[position]? = some CodeUnit.openParen ∧ ¬ complementOpening <+: input.drop position
  | .unbalancedParentheses =>
    complementOpening <+: input.drop position ∧
      (input.take position = [] ∨ Expr.IsReadable (input.take position)) ∧
      ∀ part, part <+: input.drop position → part ≠ [] →
        part.count CodeUnit.closeParen < part.count CodeUnit.openParen
  | .unexpectedUnit unit =>
    input[position]? = some unit ∧ unit.isLetter = false ∧ unit ≠ CodeUnit.digitZero ∧
      unit ≠ CodeUnit.digitOne ∧ unit ≠ CodeUnit.openParen ∧
      (unit = CodeUnit.closeParen →
        input.take position = [] ∨ Expr.IsReadable (input.take position))
  | .expectedEqualsSign => False
  | .unexpectedEqualsSign => False

/-! ## One fault at a position -/

/-- The only fault that can be found at a position. What stands there decides, and at a closing
parenthesis what stands before. -/
def foundAt (input : Text) (position : Nat) : ParseFault :=
  match input[position]? with
  | none => .expectedExpression
  | some unit =>
    if unit = CodeUnit.openParen then
      if complementOpening <+: input.drop position then .unbalancedParentheses
      else .expectedComplement
    else if unit = CodeUnit.closeParen ∧ complementOpening <:+ input.take position then
      .expectedExpression
    else .unexpectedUnit unit

/-- No expression ends where a complement has just been opened. -/
theorem not_suffix_of_isReadable {text : Text} (hreadable : Expr.IsReadable text) :
    ¬ complementOpening <:+ text := by
  rintro ⟨before, rfl⟩
  obtain ⟨phrase, htext⟩ := Expr.isReadable_iff_derivable.mp hreadable
  have hdepth := phrase.depthAfter_text 0
  rw [htext, depthAfter_append] at hdepth
  obtain ⟨depth, -, hopening⟩ := Option.bind_eq_some_iff.mp hdepth
  cases hopening

theorem Describes.eq_foundAt {input : Text} {position : Nat} {fault : ParseFault}
    (hdescribes : fault.Describes input position) : fault = foundAt input position := by
  cases fault with
  | expectedExpression =>
      rcases hdescribes with ⟨rfl, rfl⟩ | ⟨hsuffix, hunit⟩
      · rfl
      · rw [foundAt, hunit]
        simp [closeParen_ne_openParen, hsuffix]
  | expectedComplement =>
      obtain ⟨hunit, hopens⟩ := hdescribes
      simp [foundAt, hunit, hopens]
  | unbalancedParentheses =>
      obtain ⟨hopens, -, -⟩ := hdescribes
      simp [foundAt, getElem?_of_complementOpening hopens, hopens]
  | unexpectedUnit unit =>
      obtain ⟨hunit, -, -, -, hopen, hclose⟩ := hdescribes
      have hinside : ¬ (unit = CodeUnit.closeParen ∧
          complementOpening <:+ input.take position) := by
        intro h
        rcases hclose h.1 with hnil | hreadable
        · rw [hnil] at h
          exact absurd (List.suffix_nil.mp h.2) (by decide)
        · exact not_suffix_of_isReadable hreadable h.2
      rw [foundAt, hunit]
      dsimp only
      rw [if_neg hopen, if_neg hinside]
  | expectedEqualsSign => exact hdescribes.elim
  | unexpectedEqualsSign => exact hdescribes.elim

/-- A fault that describes a position is the only one that does. -/
theorem Describes.describes_iff {input : Text} {position : Nat} {fault : ParseFault}
    (hdescribes : fault.Describes input position) (other : ParseFault) :
    other.Describes input position ↔ other = fault := by
  apply Iff.intro
  · intro hother
    rw [hother.eq_foundAt, hdescribes.eq_foundAt]
  · rintro rfl
    exact hdescribes

/-! ## The fault of a refused range -/

section Refused

variable {input before range after : Text}

/-- A closing parenthesis is missing at the end of the text only: the complements around an
enclosed range have theirs, and the range needs no more. -/
theorem outermost_of_unclosed {opened : Text}
    (hvisited : Visited input before (complementOpening ++ opened) after)
    (hunclosed : splitClosing 0 opened = none) :
    after = [] ∧ (before = [] ∨ Derivable before) := by
  rcases hvisited.outermost_or_enclosed with houtermost | ⟨-, hdepth⟩
  · exact houtermost
  · rw [depthAfter_append] at hdepth
    have hopened : depthAfter 1 opened = some 0 := hdepth
    obtain ⟨inside, rest, hsplit⟩ : ∃ inside rest, splitClosing 0 opened = some (inside, rest) :=
      exists_splitClosing hopened Nat.one_pos
    rw [hunclosed] at hsplit
    cases hsplit

/-- A closing parenthesis that nothing opens is met behind whole expressions only. -/
theorem outermost_of_closeParen {tail : Text}
    (hvisited : Visited input before (CodeUnit.closeParen :: tail) after) :
    after = [] ∧ (before = [] ∨ Derivable before) := by
  rcases hvisited.outermost_or_enclosed with houtermost | ⟨-, hdepth⟩
  · exact houtermost
  · rw [depthAfter_closeParen_zero] at hdepth
    cases hdepth

/-- What opens a complement for a reader of the whole text opens it in the range. The units
of an enclosed range do not run out before they are those of an opening, because an opening
cut short leaves a parenthesis open. -/
theorem opening_prefix_of_append {tail : Text}
    (hvisited : Visited input before (CodeUnit.openParen :: tail) after)
    (hopens : complementOpening <+: CodeUnit.openParen :: tail ++ after) :
    complementOpening <+: CodeUnit.openParen :: tail := by
  rcases hvisited.outermost_or_enclosed with ⟨rfl, -⟩ | ⟨-, hdepth⟩
  · rwa [List.append_nil] at hopens
  · rcases List.prefix_or_prefix_of_prefix hopens (List.prefix_append _ after) with h | hshort
    · exact h
    · -- the range would be a part of the opening, and none of these closes its parenthesis
      have hcut : tail ∈ [CodeUnit.digitOne, CodeUnit.minus].inits :=
        (List.mem_inits _ _).mpr (List.prefix_cons_inj _ |>.mp hshort)
      simp only [List.inits, List.map_cons, List.map_nil, List.mem_cons, List.not_mem_nil,
        or_false] at hcut
      rcases hcut with rfl | rfl | rfl <;> cases hdepth

/-- The depth stays above a parenthesis that nothing closes. -/
theorem count_lt_of_unclosed {opened part : Text} (hunclosed : splitClosing 0 opened = none)
    (hpart : part <+: complementOpening ++ opened) (hnonempty : part ≠ []) :
    part.count CodeUnit.closeParen < part.count CodeUnit.openParen := by
  have hsigns : splitClosing 0 ([CodeUnit.digitOne, CodeUnit.minus] ++ opened) = none := by
    have hdepth : depthAfter 0 [CodeUnit.digitOne, CodeUnit.minus] = some 0 := rfl
    rw [splitClosing_append opened hdepth, hunclosed]
    rfl
  rcases List.prefix_cons_iff.mp hpart with rfl | ⟨tail, rfl, htail⟩
  · exact absurd rfl hnonempty
  · have hcount := count_le_of_splitClosing_eq_none hsigns htail
    rw [List.count_cons_self, List.count_cons_of_ne closeParen_ne_openParen.symm]
    omega

/-- The fault of a visited range without a first term describes the start of the range. -/
theorem describes_of_refusedTerm {fault : ParseFault} (hvisited : Visited input before range after)
    (hrefused : RefusedTerm range fault) : fault.Describes input before.length := by
  have htake : input.take before.length = before := by rw [hvisited.input_eq, List.take_left]
  have hdrop := hvisited.drop_start
  have hunit : input[before.length]? = (range ++ after).head? := by rw [← hdrop, List.head?_drop]
  have haccepted (houtermost : after = [] ∧ (before = [] ∨ Derivable before)) :
      input.take before.length = [] ∨ Expr.IsReadable (input.take before.length) := by
    rw [htake, Expr.isReadable_iff_derivable]
    exact houtermost.2
  cases hrefused with
  | missing =>
      cases hvisited with
      | whole => exact Or.inl ⟨rfl, rfl⟩
      | inside hvisited hsplit =>
          refine Or.inr ⟨?_, hunit⟩
          rw [htake]
          exact List.suffix_append _ _
      | following hvisited hsplit hread hrest => exact absurd rfl hrest
  | notComplement hopening =>
      refine ⟨hunit, ?_⟩
      rw [hdrop]
      exact fun hopens => hopening (opening_prefix_of_append hvisited hopens)
  | unclosed hunclosed =>
      have houtermost := outermost_of_unclosed hvisited hunclosed
      refine ⟨hvisited.opens, haccepted houtermost, fun part hpart => ?_⟩
      rw [hdrop, houtermost.1, List.append_nil] at hpart
      exact count_lt_of_unclosed hunclosed hpart
  | stray hopen hletter hzero hone =>
      refine ⟨hunit, Bool.eq_false_iff.mpr hletter, hzero, hone, hopen, ?_⟩
      rintro rfl
      exact haccepted (outermost_of_closeParen hvisited)

end Refused

end ParseFault

/-- A text that is not accepted is refused with a fault that describes its position, and no
other fault does. What stands before the position begins some accepted text, and every
parenthesis opened there is closed somewhere. -/
theorem Expr.fault_describes_its_position {input : Text} (hrefused : ¬ Expr.IsReadable input)
    (settings : Log.Settings) :
    ∃ error : ParseError,
      ((Expr.read input).run settings).outcome = .error (.parse error) ∧
      error.input = input ∧ error.position ≤ input.length ∧
      error.message = error.fault.description ++ " at position " ++ Text.ofNat error.position ++
        " in '" ++ input ++ "'" ∧
      (∃ more, Expr.IsReadable (input.take error.position ++ more)) ∧
      (∀ fault : ParseFault, fault.Describes input error.position ↔ fault = error.fault) ∧
      ClosedBefore input error.position := by
  cases hread : Expr.parse input with
  | ok expr => exact absurd ⟨expr, hread⟩ hrefused
  | error error =>
      obtain ⟨opening, refused, closing, hvisited, hterm, herror⟩ :=
        exists_visited_of_error input .whole hread
      have hinput := hvisited.input_eq
      have htake : input.take opening.length = opening := by rw [hinput, List.take_left]
      have hbound : opening.length ≤ input.length := by
        rw [hinput, List.length_append]
        exact Nat.le_add_right _ _
      refine ⟨error, ?_, ?_⟩
      · rw [Expr.outcome_read, hread]
        rfl
      rw [herror]
      refine ⟨rfl, hbound, rfl, ?_, ?_, hvisited.closedBefore⟩
      · obtain ⟨more, hmore⟩ := hvisited.exists_completion (.single .one)
        refine ⟨Grammar.Phrase.text (.single .one) ++ more, ?_⟩
        rw [htake, ← List.append_assoc, Expr.isReadable_iff_derivable]
        exact hmore
      · exact (ParseFault.describes_of_refusedTerm hvisited hterm).describes_iff

/-- In `(1-x)(1-y?(1-z)` the second complement is not closed, which is reported before the
question mark inside it, and at the second parenthesis and not at the third. -/
theorem Expr.fault_describes_its_position_outermost :
    ¬ Expr.IsReadable "(1-x)(1-y?(1-z)" ∧
      ((Expr.read "(1-x)(1-y?(1-z)").run .off).outcome =
        .error (.parse ⟨.unbalancedParentheses, "(1-x)(1-y?(1-z)", 5⟩) ∧
      ∀ fault : ParseFault,
        fault.Describes "(1-x)(1-y?(1-z)" 5 ↔ fault = .unbalancedParentheses := by
  have hread : Expr.parse "(1-x)(1-y?(1-z)" =
      .error ⟨.unbalancedParentheses, "(1-x)(1-y?(1-z)", 5⟩ := by cbv
  have hrefused : ¬ Expr.IsReadable "(1-x)(1-y?(1-z)" := by
    intro h
    obtain ⟨expr, hexpr⟩ := h
    rw [hread] at hexpr
    cases hexpr
  obtain ⟨error, houtcome, -, -, -, -, hdescribes, -⟩ :=
    Expr.fault_describes_its_position hrefused .off
  have herror : ((Expr.read "(1-x)(1-y?(1-z)").run .off).outcome =
      .error (.parse ⟨.unbalancedParentheses, "(1-x)(1-y?(1-z)", 5⟩) := by
    rw [Expr.outcome_read, hread]
    rfl
  rw [herror] at houtcome
  cases houtcome
  exact ⟨hrefused, herror, hdescribes⟩

end ElectiveCalculus
