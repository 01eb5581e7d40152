/-
# The universal syllogisms

All S are M, and all M are P or none of them is: then all S are P, or none of them is.
These are the figures Barbara and Celarent, and they hold of terms that are expressions
as much as of terms that are letters.

A categorical premise is made of texts. Two texts written side by side are read as the
product of what each is read as, up to nesting, so a premise says of the values of its
terms what its form says of classes. The middle term is a letter of its own, and a
valuation can give it the bit of the subject: whatever the premises forbid without
regard to the middle term, the premise between subject and predicate forbids.
-/

import ElectiveCalculus.Proofs.InputOrder
import ElectiveCalculus.Proofs.RoundTrip
import ElectiveCalculus.Proofs.Substitution
import Mathlib

namespace ElectiveCalculus

/-! ## Texts side by side -/

namespace Expr

/-- Speaking of the symbols of two expressions is speaking of the letters of their texts. -/
theorem forall_letter_iff {first second : Text} {left right : Expr}
    (hleft : Expr.parse first = .ok left) (hright : Expr.parse second = .ok right)
    {property : SymbolName → Prop} :
    (∀ unit ∈ first ++ second, unit.isLetter = true → property [unit]) ↔
      ∀ name ∈ left.symbols ++ right.symbols, property name := by
  simp only [List.forall_mem_append, mem_symbols, occurrences_of_parse hleft,
    occurrences_of_parse hright, List.forall_mem_map, List.mem_filter, and_imp]

theorem hasLetterNames_of_parse {input : Text} {expr : Expr}
    (hread : Expr.parse input = .ok expr) : expr.HasLetterNames := by
  intro name hname
  rw [occurrences_of_parse hread] at hname
  rcases List.mem_map.mp hname with ⟨unit, hunit, rfl⟩
  exact (List.mem_filter.mp hunit).2

/-- Two texts side by side are read as the product of their trees, with the factors of the
first nested into those of the second. -/
theorem parse_append {first second : Text} {left right : Expr}
    (hleft : Expr.parse first = .ok left) (hright : Expr.parse second = .ok right) :
    Expr.parse (first ++ second) = .ok (Expr.product left right).rightNested := by
  have hletters : (Expr.product left right).HasLetterNames := by
    intro name hname
    rcases List.mem_append.mp hname with h | h
    · exact hasLetterNames_of_parse hleft name h
    · exact hasLetterNames_of_parse hright name h
  have hread := parse_render hletters
  rw [render, render_of_parse hleft, render_of_parse hright] at hread
  exact hread

theorem parse_letter {unit : CodeUnit} (hletter : unit.isLetter = true) :
    Expr.parse [unit] = .ok (.sym [unit]) :=
  Expr.parse_eq_ok_iff.mpr ⟨.single (.letter unit hletter), rfl, rfl⟩

theorem holds_rightNested (expr : Expr) (valuation : Valuation) :
    expr.rightNested.holds valuation = expr.holds valuation := by
  have hvalue := evaluate_rightNested expr expr.symbols
    (Equation.bitValues (expr.symbols.map valuation))
  rw [evaluate_bitValues (fun _ hname => hname),
    evaluate_bitValues (fun _ hname => expr.symbols_rightNested ▸ hname)] at hvalue
  revert hvalue
  cases expr.rightNested.holds valuation <;> cases expr.holds valuation <;> simp

end Expr

/-! ## Categorical premises -/

namespace CategoricalForm

/-- What the predicate is worth of a member of the subject that refutes a proposition of
the form. -/
def refutingBit : CategoricalForm → Bool
  | .universalAffirmative => false
  | .universalNegative => true

/-- A valuation refutes the proposition of a form about two terms. -/
def RefutedBy (form : CategoricalForm) (left right : Expr) (valuation : Valuation) : Prop :=
  left.holds valuation = true ∧ right.holds valuation = form.refutingBit

variable {subject predicate : Text} {left right : Expr} {scope : List SymbolName}

theorem refutedBy_congr (form : CategoricalForm) {first second : Valuation}
    (hleft : ∀ name ∈ left.symbols, first name = second name)
    (hright : ∀ name ∈ right.symbols, first name = second name) :
    form.RefutedBy left right first ↔ form.RefutedBy left right second := by
  rw [RefutedBy, RefutedBy,
    Expr.holds_congr fun name hname => hleft name (Expr.mem_symbols.mpr hname),
    Expr.holds_congr fun name hname => hright name (Expr.mem_symbols.mpr hname)]

/-- The sides of a categorical premise can be read. They have the symbols of its terms and
are worth the same except where the proposition is refuted. -/
theorem exists_sides (form : CategoricalForm) (hsubject : Expr.parse subject = .ok left)
    (hpredicate : Expr.parse predicate = .ok right) :
    ∃ lhs rhs : Expr, Expr.parse (form.premise subject predicate).lhs = .ok lhs ∧
      Expr.parse (form.premise subject predicate).rhs = .ok rhs ∧
      (∀ name ∈ lhs.symbols ++ rhs.symbols, name ∈ left.symbols ++ right.symbols) ∧
      ∀ valuation : Valuation, lhs.holds valuation = rhs.holds valuation ↔
        ¬ form.RefutedBy left right valuation := by
  have hboth := Expr.parse_append hsubject hpredicate
  cases form with
  | universalAffirmative =>
      refine ⟨left, _, hsubject, hboth, ?_, ?_⟩
      · intro name hname
        rw [Expr.symbols_rightNested, List.mem_append, Expr.mem_symbols_product] at hname
        rw [List.mem_append]
        exact or_self_left.mp hname
      · intro valuation
        rw [Expr.holds_rightNested, Expr.holds, RefutedBy, refutingBit]
        cases left.holds valuation <;> cases right.holds valuation <;> decide
  | universalNegative =>
      have hnothing : Expr.parse [CodeUnit.digitZero] = .ok (.const false) :=
        Expr.parse_eq_ok_iff.mpr ⟨.single .zero, rfl, rfl⟩
      refine ⟨_, .const false, hboth, hnothing, ?_, ?_⟩
      · intro name hname
        rw [Expr.symbols_rightNested, Expr.symbols_const, List.append_nil,
          Expr.mem_symbols_product] at hname
        exact List.mem_append.mpr hname
      · intro valuation
        rw [Expr.holds_rightNested, Expr.holds, Expr.holds, RefutedBy, refutingBit]
        cases left.holds valuation <;> cases right.holds valuation <;> decide

theorem isOver_premise (form : CategoricalForm) (hsubject : Expr.parse subject = .ok left)
    (hpredicate : Expr.parse predicate = .ok right) (hleft : ∀ name ∈ left.symbols, name ∈ scope)
    (hright : ∀ name ∈ right.symbols, name ∈ scope) :
    (form.premise subject predicate).IsOver scope := by
  obtain ⟨lhs, rhs, hlhs, hrhs, hsides, -⟩ := form.exists_sides hsubject hpredicate
  have hterms := List.forall_mem_append.mpr ⟨hleft, hright⟩
  exact ⟨lhs, rhs, hlhs, hrhs, fun name hname => hterms name (hsides name hname)⟩

/-- A valuation satisfies a categorical premise unless it refutes the proposition. -/
theorem satisfiedBy_premise_iff (form : CategoricalForm)
    (hsubject : Expr.parse subject = .ok left) (hpredicate : Expr.parse predicate = .ok right)
    (hleft : ∀ name ∈ left.symbols, name ∈ scope)
    (hright : ∀ name ∈ right.symbols, name ∈ scope) (valuation : Valuation) :
    (form.premise subject predicate).SatisfiedBy scope (scope.map valuation) ↔
      ¬ form.RefutedBy left right valuation := by
  obtain ⟨lhs, rhs, hlhs, hrhs, hsides, hvalues⟩ := form.exists_sides hsubject hpredicate
  have hterms := List.forall_mem_append.mpr ⟨hleft, hright⟩
  obtain ⟨hlhs', hrhs'⟩ := List.forall_mem_append.mp fun name hname =>
    hterms name (hsides name hname)
  rw [Premise.satisfiedBy_map_iff hlhs hrhs hlhs' hrhs', hvalues]

/-- What the two premises of a figure say together: the proposition that the subject is in the
middle term is not refuted, and neither is the one about the middle term and the predicate. -/
theorem satisfiedBy_figure_iff {middle : Text} {center : Expr} (form : CategoricalForm)
    (hsubject : Expr.parse subject = .ok left) (hmiddle : Expr.parse middle = .ok center)
    (hpredicate : Expr.parse predicate = .ok right) (hleft : ∀ name ∈ left.symbols, name ∈ scope)
    (hcenter : ∀ name ∈ center.symbols, name ∈ scope)
    (hright : ∀ name ∈ right.symbols, name ∈ scope) (valuation : Valuation) :
    (∀ premise ∈ [universalAffirmative.premise subject middle, form.premise middle predicate],
        premise.SatisfiedBy scope (scope.map valuation)) ↔
      ¬ universalAffirmative.RefutedBy left center valuation ∧
        ¬ form.RefutedBy center right valuation := by
  rw [List.forall_mem_cons, List.forall_mem_cons,
    satisfiedBy_premise_iff _ hsubject hmiddle hleft hcenter,
    satisfiedBy_premise_iff _ hmiddle hpredicate hcenter hright]
  simp

/-- Two premises with a middle term do not refute what they conclude. -/
theorem not_refutedBy_of_middle {form : CategoricalForm} {center : Expr} {valuation : Valuation}
    (h : ¬ universalAffirmative.RefutedBy left center valuation ∧
      ¬ form.RefutedBy center right valuation) :
    ¬ form.RefutedBy left right valuation := by
  intro hrefuted
  rcases hrefuted with ⟨hleft, hright⟩
  apply h.1
  apply And.intro hleft
  rw [refutingBit, ← Bool.not_eq_true]
  exact fun hcenter => h.2 ⟨hcenter, hright⟩

/-- What is not refuted of two terms follows by a middle term, whose symbol is given the bit
of the subject. -/
theorem not_refutedBy_update {form : CategoricalForm} {middle : SymbolName}
    {valuation : Valuation} (hleft : middle ∉ left.symbols) (hright : middle ∉ right.symbols)
    (hterms : ¬ form.RefutedBy left right valuation) :
    ¬ universalAffirmative.RefutedBy left (.sym middle)
        (Function.update valuation middle (left.holds valuation)) ∧
      ¬ form.RefutedBy (.sym middle) right
        (Function.update valuation middle (left.holds valuation)) := by
  simp only [RefutedBy, Expr.holds_update_of_not_mem hleft, Expr.holds_update_of_not_mem hright,
    Expr.holds, Function.update_self]
  apply And.intro
  · intro h
    rw [h.1] at h
    cases h.2
  · exact hterms

end CategoricalForm

/-! ## The figures -/

namespace Inference

variable {limit : Int} {scope : List SymbolName}

/-- What a conclusion excludes, when that is a matter of the variables left over: no valuation
that satisfies the premises may be among it, and every other valuation must agree on these
variables with one that satisfies them. -/
theorem exists_conclusion_excluding {premises : List Premise}
    {eliminated narrow : List SymbolName} {excluded : Valuation → Prop} (settings : Log.Settings)
    (hdrawable : Drawable limit premises scope eliminated)
    (hnarrow : scope.filter (fun name => name ∉ eliminated) = narrow)
    (hlocal : ∀ first second : Valuation, (∀ name ∈ narrow, first name = second name) →
      (excluded first ↔ excluded second))
    (hsound : ∀ valuation : Valuation,
      (∀ premise ∈ premises, premise.SatisfiedBy scope (scope.map valuation)) →
        ¬ excluded valuation)
    (hcomplete : ∀ valuation : Valuation, ¬ excluded valuation → ∃ other : Valuation,
      (∀ name ∈ narrow, other name = valuation name) ∧
        ∀ premise ∈ premises, premise.SatisfiedBy scope (scope.map other)) :
    ∃ inference, ((draw limit premises scope eliminated).run settings).outcome =
        .ok inference ∧
      inference.conclusion.scope = narrow ∧
      ∀ valuation : Valuation,
        inference.conclusion.excludes valuation = true ↔ excluded valuation := by
  obtain ⟨inference, hdrawn⟩ := (exists_outcome_draw_iff settings).mpr hdrawable
  obtain ⟨hscope, hexcludes⟩ := conclusion_spec hdrawn
  rw [hnarrow] at hscope
  refine ⟨inference, hdrawn, hscope, fun valuation => ?_⟩
  rw [hexcludes valuation, hscope, not_iff_comm]
  apply Iff.intro
  · exact hcomplete valuation
  · intro h
    rcases h with ⟨other, hagree, hpremises⟩
    exact fun hexcluded => hsound other hpremises ((hlocal other valuation hagree).mpr hexcluded)

variable {subject predicate : Text} {left right : Expr}

/-- A categorical premise by itself concludes that its proposition is not refuted. -/
theorem exists_conclusion_premise (form : CategoricalForm) (settings : Log.Settings)
    (hsubject : Expr.parse subject = .ok left) (hpredicate : Expr.parse predicate = .ok right)
    (hadmitted : Admissible limit scope) (hleft : ∀ name ∈ left.symbols, name ∈ scope)
    (hright : ∀ name ∈ right.symbols, name ∈ scope) :
    ∃ single, ((draw limit [form.premise subject predicate] scope []).run settings).outcome =
        .ok single ∧
      single.conclusion.scope = scope ∧
      ∀ valuation : Valuation, single.conclusion.excludes valuation = true ↔
        form.RefutedBy left right valuation := by
  have hdrawable : Drawable limit [form.premise subject predicate] scope [] := {
    nonempty := List.cons_ne_nil _ _
    readable := List.forall_mem_singleton.mpr
      (form.isOver_premise hsubject hpredicate hleft hright)
    admitted := hadmitted
    distinct := List.nodup_nil
    known := fun _ hsymbol => absurd hsymbol List.not_mem_nil }
  have hsatisfied := form.satisfiedBy_premise_iff hsubject hpredicate hleft hright
  apply exists_conclusion_excluding settings hdrawable (List.filter_eq_self.mpr (by simp))
  · intro first second hagree
    exact form.refutedBy_congr (fun name hname => hagree name (hleft name hname))
      fun name hname => hagree name (hright name hname)
  · simp only [List.forall_mem_singleton, hsatisfied, imp_self, implies_true]
  · simp only [List.forall_mem_singleton, hsatisfied]
    exact fun valuation hvaluation => ⟨valuation, fun _ _ => rfl, hvaluation⟩

/-- Two categorical premises with a middle term conclude that their outer terms do not refute
the form of the second. -/
theorem exists_conclusion_middle {middle : CodeUnit} (form : CategoricalForm)
    (settings : Log.Settings) (hsubject : Expr.parse subject = .ok left)
    (hpredicate : Expr.parse predicate = .ok right) (hadmitted : Admissible limit scope)
    (hmiddle : [middle] ∈ scope)
    (hleft : ∀ name ∈ left.symbols, name ∈ scope.filter (· != [middle]))
    (hright : ∀ name ∈ right.symbols, name ∈ scope.filter (· != [middle])) :
    ∃ pair, ((draw limit [CategoricalForm.universalAffirmative.premise subject [middle],
          form.premise [middle] predicate] scope [[middle]]).run settings).outcome = .ok pair ∧
      pair.conclusion.scope = scope.filter (· != [middle]) ∧
      ∀ valuation : Valuation, pair.conclusion.excludes valuation = true ↔
        form.RefutedBy left right valuation := by
  have hletter : Expr.parse [middle] = .ok (.sym [middle]) :=
    Expr.parse_letter (hadmitted.letters _ hmiddle)
  have hcenter : ∀ name ∈ (Expr.sym [middle]).symbols, name ∈ scope := by
    simpa using hmiddle
  have hleft' : ∀ name ∈ left.symbols, name ∈ scope := fun name hname =>
    List.mem_of_mem_filter (hleft name hname)
  have hright' : ∀ name ∈ right.symbols, name ∈ scope := fun name hname =>
    List.mem_of_mem_filter (hright name hname)
  have hdrawable : Drawable limit
      [CategoricalForm.universalAffirmative.premise subject [middle],
        form.premise [middle] predicate] scope [[middle]] := {
    nonempty := List.cons_ne_nil _ _
    readable := List.forall_mem_cons.mpr
      ⟨CategoricalForm.isOver_premise _ hsubject hletter hleft' hcenter,
        List.forall_mem_singleton.mpr (form.isOver_premise hletter hpredicate hcenter hright')⟩
    admitted := hadmitted
    distinct := List.nodup_singleton _
    known := List.forall_mem_singleton.mpr hmiddle }
  have hsatisfied := CategoricalForm.satisfiedBy_figure_iff form hsubject hletter hpredicate
    hleft' hcenter hright'
  apply exists_conclusion_excluding settings hdrawable
    (List.filter_congr fun name _ => Bool.eq_iff_iff.mpr (by simp))
  · intro first second hagree
    exact form.refutedBy_congr (fun name hname => hagree name (hleft name hname))
      fun name hname => hagree name (hright name hname)
  · intro valuation hpremises
    exact CategoricalForm.not_refutedBy_of_middle ((hsatisfied valuation).mp hpremises)
  · intro valuation hvaluation
    refine ⟨Function.update valuation [middle] (left.holds valuation), ?_, ?_⟩
    · intro name hname
      rw [List.mem_filter, bne_iff_ne] at hname
      rw [Function.update_of_ne hname.2]
    · exact (hsatisfied _).mpr (CategoricalForm.not_refutedBy_update
        (fun h => by simpa using hleft _ h) (fun h => by simpa using hright _ h) hvaluation)

/-- Barbara and Celarent. All S are M, and all M are P or none is: what is concluded without
the middle term is the very equation that all S are P, or that none is, concludes by itself.
It forbids the assignments that give the subject the value 1 and the predicate the value
that refutes the form, 0 for the affirmative and 1 for the negative one. -/
theorem barbara_and_celarent {middle : CodeUnit} (form : CategoricalForm)
    (settings settings' : Log.Settings) (hsubject : Expr.parse subject = .ok left)
    (hpredicate : Expr.parse predicate = .ok right)
    (hfresh : middle ∉ subject ++ predicate) (hadmitted : Admissible limit scope)
    (hmiddle : [middle] ∈ scope)
    (hletters : ∀ unit ∈ subject ++ predicate, unit.isLetter = true → [unit] ∈ scope) :
    ∃ pair single : Inference,
      ((draw limit [CategoricalForm.universalAffirmative.premise subject [middle],
          form.premise [middle] predicate] scope [[middle]]).run settings).outcome = .ok pair ∧
      ((draw limit [form.premise subject predicate] (scope.filter (· != [middle])) []).run
          settings').outcome = .ok single ∧
      pair.conclusion = single.conclusion ∧
      ∀ assignment : Assignment,
        assignment.length = (scope.filter (· != [middle])).length →
          (single.conclusion.isForbidden assignment = .ok true ↔
            left.evaluate (scope.filter (· != [middle])) (Equation.bitValues assignment) = .ok 1 ∧
            right.evaluate (scope.filter (· != [middle])) (Equation.bitValues assignment) =
              .ok (if form.refutingBit then 1 else 0)) := by
  have hsymbols : ∀ name ∈ left.symbols ++ right.symbols,
      name ∈ scope.filter (· != [middle]) := by
    rw [← Expr.forall_letter_iff hsubject hpredicate]
    intro unit hunit hletter
    rw [List.mem_filter, bne_iff_ne]
    refine ⟨hletters unit hunit hletter, fun heq => ?_⟩
    obtain rfl := List.singleton_injective heq
    exact hfresh hunit
  obtain ⟨hleft, hright⟩ := List.forall_mem_append.mp hsymbols
  obtain ⟨pair, hpair, hscope, hexcludes⟩ := exists_conclusion_middle form settings hsubject
    hpredicate hadmitted hmiddle hleft hright
  obtain ⟨single, hsingle, hscope', hexcludes'⟩ := exists_conclusion_premise form settings'
    hsubject hpredicate (hadmitted.filter _) hleft hright
  have hpair' := wellFormed_conclusion hpair
  have hsingle' := wellFormed_conclusion hsingle
  refine ⟨pair, single, hpair, hsingle, ?_, ?_⟩
  · apply Equation.eq_of_excludes hpair'.complete hsingle'.complete hpair'.distinct
      (hscope.trans hscope'.symm)
    intro valuation
    rw [Bool.eq_iff_iff, hexcludes, hexcludes']
  · rw [← hscope']
    intro assignment hwidth
    obtain ⟨valuation, rfl⟩ := exists_valuation hsingle'.distinct hwidth
    rw [isForbidden_map, Except.ok.injEq, hexcludes', CategoricalForm.RefutedBy, hscope',
      Expr.evaluate_bitValues hleft, Expr.evaluate_bitValues hright]
    cases left.holds valuation <;> cases right.holds valuation <;> cases form.refutingBit <;>
      simp

/-- All that is x and not y is m, and no m is z: none of it is z. -/
theorem barbara_and_celarent_difference :
    CategoricalForm.ofLetter "A" = .ok .universalAffirmative ∧
      CategoricalForm.ofLetter "E" = .ok .universalNegative ∧
      ∃ pair, ((draw 16 [CategoricalForm.universalAffirmative.premise "x(1-y)" "m",
            CategoricalForm.universalNegative.premise "m" "z"] ["z", "m", "y", "x"] ["m"]).run
          .off).outcome = .ok pair ∧
        pair.conclusion = ⟨["z", "y", "x"],
          #[false, false, false, false, false, true, false, false]⟩ := by
  have hsubject : Expr.parse "x(1-y)" = .ok (.product (.sym "x") (.not (.sym "y"))) := by cbv
  have hpredicate : Expr.parse "z" = .ok (.sym "z") := by cbv
  have hfresh : (0x6D : CodeUnit) ∉ ("x(1-y)" : Text) ++ "z" := by decide
  have hadmitted : Admissible 16 ["z", "m", "y", "x"] := ⟨by decide, by decide, by decide⟩
  have hmiddle : ([0x6D] : SymbolName) ∈ (["z", "m", "y", "x"] : List SymbolName) := by decide
  have hsymbols : ∀ name ∈ (Expr.product (.sym "x") (.not (.sym "y"))).symbols ++
      (Expr.sym "z").symbols, name ∈ (["z", "m", "y", "x"] : List SymbolName) := by decide
  have hletters := (Expr.forall_letter_iff hsubject hpredicate).mpr hsymbols
  obtain ⟨pair, single, hpair, hsingle, hsame, -⟩ := barbara_and_celarent .universalNegative
    .off .off hsubject hpredicate hfresh hadmitted hmiddle hletters
  have hdirect : ((draw 16 [CategoricalForm.universalNegative.premise "x(1-y)" "z"]
      ["z", "y", "x"] []).run .off).outcome = .ok
        ⟨[⟨["z", "y", "x"], #[false, false, false, false, false, true, false, false]⟩],
          ⟨["z", "y", "x"], #[false, false, false, false, false, true, false, false]⟩,
          ⟨["z", "y", "x"], #[false, false, false, false, false, true, false, false]⟩,
          "z(1-y)x = 0"⟩ := by cbv
  refine ⟨rfl, rfl, pair, hpair, hsame.trans ?_⟩
  obtain rfl := Except.ok.inj (hdirect.symm.trans hsingle)
  rfl

end Inference

end ElectiveCalculus
