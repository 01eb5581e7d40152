/-
# Writing and reading back

What is read is written back as it stood. What is written is read back as its
right-nested form, because a written product has lost its nesting: two trees are
written alike exactly when their right-nested forms are the same tree. Nothing
else is lost, neither a symbol nor a value.

The reader follows ranges of a text and the writer the structure of a tree. They
meet in the derivations of the grammar, which have both a text and a tree.
-/

import ElectiveCalculus.Proofs.Grammar
import ElectiveCalculus.Proofs.RightNesting
import Mathlib

namespace ElectiveCalculus

open Grammar

/-- Every symbol of the expression has a name that the notation can write. -/
def Expr.HasLetterNames (expr : Expr) : Prop :=
  ∀ name ∈ expr.occurrences, SymbolName.isLetter name = true

namespace Grammar

/-! ## Derivations and the texts of their trees -/

mutual

theorem Term.render_denoted (term : Term) : term.denoted.render = term.text := by
  cases term with
  | letter unit isLetter => rfl
  | zero => rfl
  | one => rfl
  | complement inside => rw [Term.denoted, Expr.render, inside.render_denoted, Term.text]

theorem Phrase.render_denoted (phrase : Phrase) : phrase.denoted.render = phrase.text := by
  cases phrase with
  | single term => exact term.render_denoted
  | juxtaposed term rest =>
      rw [Phrase.denoted, Expr.render, term.render_denoted, rest.render_denoted, Phrase.text]

end

mutual

/-- The symbols of the tree of a derived term are the letters of its text. -/
theorem Term.occurrences_denoted (term : Term) :
    term.denoted.occurrences = (term.text.filter CodeUnit.isLetter).map fun unit => [unit] := by
  cases term with
  | letter unit isLetter => simp [Term.denoted, Expr.occurrences, Term.text, isLetter]
  | zero => rfl
  | one => rfl
  | complement inside =>
      have hopening : complementOpening.filter CodeUnit.isLetter = [] := rfl
      have hclosing : [CodeUnit.closeParen].filter CodeUnit.isLetter = [] := rfl
      rw [Term.denoted, Expr.occurrences, inside.occurrences_denoted, Term.text,
        List.filter_append, List.filter_append, hopening, hclosing, List.nil_append,
        List.append_nil]

/-- The symbols of the tree of a derived expression are the letters of its text. -/
theorem Phrase.occurrences_denoted (phrase : Phrase) :
    phrase.denoted.occurrences =
      (phrase.text.filter CodeUnit.isLetter).map fun unit => [unit] := by
  cases phrase with
  | single term => exact term.occurrences_denoted
  | juxtaposed term rest =>
      rw [Phrase.denoted, Expr.occurrences, term.occurrences_denoted, rest.occurrences_denoted,
        Phrase.text, List.filter_append, List.map_append]

end

/-- The trees of the terms of a derivation, from left to right. -/
def Phrase.factors : Phrase → List Expr
  | .single term => [term.denoted]
  | .juxtaposed term rest => term.denoted :: rest.factors

/-- One derivation after another. -/
def Phrase.append : Phrase → Phrase → Phrase
  | .single term, second => .juxtaposed term second
  | .juxtaposed term rest, second => .juxtaposed term (rest.append second)

theorem Phrase.text_append (first second : Phrase) :
    (first.append second).text = first.text ++ second.text := by
  match first with
  | .single term => rfl
  | .juxtaposed term rest =>
    simp only [Phrase.append, Phrase.text, rest.text_append second, List.append_assoc]

theorem Phrase.factors_append (first second : Phrase) :
    (first.append second).factors = first.factors ++ second.factors := by
  match first with
  | .single term => rfl
  | .juxtaposed term rest =>
    simp only [Phrase.append, Phrase.factors, rest.factors_append second, List.cons_append]

theorem Phrase.factors_ne_nil (phrase : Phrase) : phrase.factors ≠ [] := by
  cases phrase <;> simp [Phrase.factors]

/-- A derivation denotes the right-nested product of its terms. -/
theorem Phrase.denoted_eq_ofFactors (phrase : Phrase) :
    phrase.denoted = Expr.ofFactors phrase.factors := by
  match phrase with
  | .single term => rfl
  | .juxtaposed term rest =>
    rw [Phrase.denoted, Phrase.factors, Expr.ofFactors_cons _ rest.factors_ne_nil,
      rest.denoted_eq_ofFactors]

/-- What is written of an expression has a derivation whose terms are the factors of
the expression. A product needs the derivations of its sides one after the other, at
any nesting. -/
theorem exists_phrase_of_hasLetterNames (expr : Expr) (hletters : expr.HasLetterNames) :
    ∃ phrase : Phrase, phrase.text = expr.render ∧ phrase.factors = expr.nestedFactors := by
  induction expr with
  | sym name =>
      have hname : SymbolName.isLetter name = true := hletters name (List.mem_singleton.mpr rfl)
      match name, hname with
      | [unit], hunit => exact ⟨.single (.letter unit hunit), rfl, rfl⟩
  | const value =>
      cases value with
      | false => exact ⟨.single .zero, rfl, rfl⟩
      | true => exact ⟨.single .one, rfl, rfl⟩
  | not arg ih =>
      obtain ⟨inside, htext, hfactors⟩ := ih hletters
      refine ⟨.single (.complement inside), ?_, ?_⟩
      · rw [Phrase.text, Term.text, htext, Expr.render]
      · rw [Phrase.factors, Term.denoted, inside.denoted_eq_ofFactors, hfactors,
          Expr.nestedFactors]
  | product left right ihLeft ihRight =>
      obtain ⟨first, htext, hfactors⟩ := ihLeft fun name hname =>
        hletters name (List.mem_append_left _ hname)
      obtain ⟨second, htext', hfactors'⟩ := ihRight fun name hname =>
        hletters name (List.mem_append_right _ hname)
      refine ⟨first.append second, ?_, ?_⟩
      · rw [first.text_append, htext, htext', Expr.render]
      · rw [first.factors_append, hfactors, hfactors', Expr.nestedFactors]

end Grammar

namespace Expr

/-! ## The round trips -/

/-- What is read is written back unit for unit. -/
theorem render_of_parse {input : Text} {expr : Expr} (hread : Expr.parse input = .ok expr) :
    expr.render = input := by
  obtain ⟨phrase, rfl, rfl⟩ := Expr.parse_eq_ok_iff.mp hread
  exact phrase.render_denoted

/-- The symbols of what is read are the letters of the text, from left to right. -/
theorem occurrences_of_parse {input : Text} {expr : Expr} (hread : Expr.parse input = .ok expr) :
    expr.occurrences = (input.filter CodeUnit.isLetter).map fun unit => [unit] := by
  obtain ⟨phrase, rfl, rfl⟩ := Expr.parse_eq_ok_iff.mp hread
  exact phrase.occurrences_denoted

/-- What is written is read back as its right-nested form. -/
theorem parse_render {expr : Expr} (hletters : expr.HasLetterNames) :
    Expr.parse expr.render = .ok expr.rightNested := by
  obtain ⟨phrase, htext, hfactors⟩ := exists_phrase_of_hasLetterNames expr hletters
  refine Expr.parse_eq_ok_iff.mpr ⟨phrase, htext, ?_⟩
  rw [phrase.denoted_eq_ofFactors, hfactors, rightNested]

theorem render_rightNested {expr : Expr} (hletters : expr.HasLetterNames) :
    expr.rightNested.render = expr.render :=
  render_of_parse (parse_render hletters)

theorem render_eq_render_iff {first second : Expr} (hfirst : first.HasLetterNames)
    (hsecond : second.HasLetterNames) :
    first.render = second.render ↔ first.rightNested = second.rightNested := by
  apply Iff.intro
  · intro h
    have hread := parse_render hfirst
    rw [h, parse_render hsecond] at hread
    exact (Except.ok.inj hread).symm
  · intro h
    rw [← render_rightNested hfirst, h, render_rightNested hsecond]

/-- Reading and writing are inverse to each other up to the nesting of products, and
the nesting is all that is lost: the symbols, the values and the errors of
evaluation, and the text itself depend on the right-nested form alone. -/
theorem read_and_written_up_to_nesting (settings : Log.Settings) :
    (∀ (input : Text) (expr : Expr),
        ((Expr.read input).run settings).outcome = .ok expr → expr.render = input) ∧
      (∀ expr : Expr, expr.HasLetterNames →
        ((Expr.read expr.render).run settings).outcome = .ok expr.rightNested ∧
          (((Expr.read expr.render).run settings).outcome = .ok expr ↔
            expr.isRightNested = true) ∧
          expr.rightNested.symbols = expr.symbols ∧
          ∀ (scope : List SymbolName) (values : List Int),
            expr.rightNested.evaluate scope values = expr.evaluate scope values) ∧
      (∀ first second : Expr, first.HasLetterNames → second.HasLetterNames →
        (first.render = second.render ↔ first.rightNested = second.rightNested)) := by
  refine ⟨?_, ?_, fun first second => render_eq_render_iff⟩
  · intro input expr hread
    exact render_of_parse (outcome_read_eq_ok_iff.mp hread)
  · intro expr hletters
    have hread : ((Expr.read expr.render).run settings).outcome = .ok expr.rightNested :=
      outcome_read_eq_ok_iff.mpr (parse_render hletters)
    refine ⟨hread, ?_, expr.symbols_rightNested, expr.evaluate_rightNested⟩
    rw [hread, ← rightNested_eq_self_iff]
    exact ⟨Except.ok.inj, congrArg Except.ok⟩

/-- A product of three symbols that was nested to the left is read back nested to the
right. -/
theorem read_and_written_up_to_nesting_left :
    ((Expr.read (Expr.product (.product (.sym "x") (.sym "y")) (.sym "z")).render).run
        .off).outcome = .ok (.product (.sym "x") (.product (.sym "y") (.sym "z"))) ∧
      ((Expr.read (Expr.product (.product (.sym "x") (.sym "y")) (.sym "z")).render).run
        .off).outcome ≠ .ok (.product (.product (.sym "x") (.sym "y")) (.sym "z")) := by
  have hletters : (Expr.product (.product (.sym "x") (.sym "y")) (.sym "z")).HasLetterNames := by
    unfold HasLetterNames
    decide
  rcases (read_and_written_up_to_nesting .off).2.1 _ hletters with ⟨hread, hself, -⟩
  apply And.intro hread
  intro h
  exact absurd (hself.mp h) (by decide)

end Expr

end ElectiveCalculus
