/-
# Elimination and consistency

Premises are consistent when some assignment to the variables satisfies all of them, and
otherwise their combined equation forbids every row. Eliminating variables keeps this: a
table that forbids every row is left with rows that are all forbidden, and one that does
not is left with a row that is allowed.

When every variable is eliminated one row is left, and the equation shown is the verdict
on the premises. It says that the unit is nothing when they cannot all be satisfied, and
says nothing when they can.
-/

import ElectiveCalculus.Proofs.Conclusion
import ElectiveCalculus.Proofs.Extensionality
import Mathlib

namespace ElectiveCalculus

namespace Equation

variable {settings : Log.Settings} {equation result : Equation}

/-- An equation and what elimination leaves of it are contradictions alike. -/
theorem isContradiction_eliminateAll {symbols : List SymbolName}
    (hcomplete : equation.IsComplete) (hdistinct : equation.scope.Nodup)
    (heliminated : ((equation.eliminateAll symbols).run settings).outcome = .ok result) :
    result.isContradiction = equation.isContradiction := by
  obtain ⟨hscope, hresult, hexcludes⟩ := eliminateAll_spec hcomplete hdistinct heliminated
  have hdistinct' : result.scope.Nodup := hscope ▸ hdistinct.filter _
  rw [Bool.eq_iff_iff, isContradiction_iff hresult hdistinct',
    isContradiction_iff hcomplete hdistinct]
  apply Iff.intro
  · intro hall valuation
    exact (hexcludes valuation).mp (hall valuation) valuation fun _ _ => rfl
  · intro hall valuation
    exact (hexcludes valuation).mpr fun other _ => hall other

/-- A complete table over no variables has one row, and is shown by the verdict in it. -/
theorem render_of_scope_eq_nil (hcomplete : equation.IsComplete) (hscope : equation.scope = []) :
    equation.render = if equation.isContradiction then "1 = 0" else "0 = 0" := by
  have hsize : equation.forbidden.size = 1 := by
    rw [hcomplete, hscope]
    rfl
  obtain ⟨verdict, hrow⟩ := Array.size_eq_one_iff.mp hsize
  obtain ⟨scope, forbidden⟩ := equation
  subst hscope hrow
  cases verdict <;> cbv

end Equation

namespace Inference

variable {settings : Log.Settings} {limit : Int} {scope eliminated : List SymbolName}
  {premises : List Premise} {inference : Inference}

/-- Some assignment to the variables of a scope satisfies every premise. -/
def Consistent (premises : List Premise) (scope : List SymbolName) : Prop :=
  ∃ assignment : Assignment, assignment.length = scope.length ∧
    ∀ premise ∈ premises, premise.SatisfiedBy scope assignment

/-- The combined equation is a contradiction when the premises are inconsistent. -/
theorem isContradiction_combined_iff
    (hdrawn : ((draw limit premises scope eliminated).run settings).outcome = .ok inference) :
    inference.combined.isContradiction = true ↔ ¬ Consistent premises scope := by
  obtain ⟨hadmitted, hscope, hcomplete, hexcludes⟩ := combined_spec hdrawn
  rw [Equation.isContradiction_iff hcomplete (hscope ▸ hadmitted.distinct)]
  simp only [hexcludes, Consistent, not_exists, not_and]
  rw [forall_assignment_iff hadmitted.distinct]

theorem isContradiction_conclusion
    (hdrawn : ((draw limit premises scope eliminated).run settings).outcome = .ok inference) :
    inference.conclusion.isContradiction = inference.combined.isContradiction := by
  obtain ⟨hcomplete, hdistinct, heliminated⟩ := conclusion_of_combined hdrawn
  exact Equation.isContradiction_eliminateAll hcomplete hdistinct heliminated

/-- Nothing is left over when every variable is eliminated, and the text is the verdict. -/
theorem text_of_perm
    (hdrawn : ((draw limit premises scope eliminated).run settings).outcome = .ok inference)
    (hall : eliminated.Perm scope) :
    inference.conclusion.scope = [] ∧
      inference.text = if inference.conclusion.isContradiction then "1 = 0" else "0 = 0" := by
  obtain ⟨hcomplete, hdistinct, heliminated⟩ := conclusion_of_combined hdrawn
  have htext := (outcome_draw_eq_ok_iff.mp hdrawn).2.2.2
  have hleft : inference.conclusion.scope = [] := by
    rw [(conclusion_spec hdrawn).1, List.filter_eq_nil_iff]
    intro name hname
    simp [hall.mem_iff.mpr hname]
  have htable : inference.conclusion.IsComplete :=
    (Equation.eliminateAll_spec hcomplete hdistinct heliminated).2.1
  exact ⟨hleft, htext.trans (Equation.render_of_scope_eq_nil htable hleft)⟩

/-- An inference is a contradiction in the end exactly when it was one before any variable
was eliminated, which is when the premises are inconsistent. With no variable left the
text says which of the two it is. -/
theorem elimination_keeps_consistency
    (hdrawn : ((draw limit premises scope eliminated).run settings).outcome = .ok inference) :
    inference.conclusion.isContradiction = inference.combined.isContradiction ∧
      (inference.combined.isContradiction = true ↔ ¬ Consistent premises scope) ∧
      (eliminated.Perm scope → inference.conclusion.scope = [] ∧
        (¬ Consistent premises scope → inference.text = "1 = 0") ∧
          (Consistent premises scope → inference.text = "0 = 0")) := by
  have hkept := isContradiction_conclusion hdrawn
  have hverdict := isContradiction_combined_iff hdrawn
  refine ⟨hkept, hverdict, fun hall => ?_⟩
  obtain ⟨hleft, htext⟩ := text_of_perm hdrawn hall
  rw [hkept] at htext
  refine ⟨hleft, fun hinconsistent => ?_, fun hconsistent => ?_⟩
  · rw [htext, if_pos (hverdict.mpr hinconsistent)]
  · rw [htext, if_neg fun hcontradiction => hverdict.mp hcontradiction hconsistent]

/-- No x is y, all x are y and everything is x, with both variables eliminated. -/
def emptyUniverse : Inference where
  premises :=
    [⟨["x", "y"], #[false, false, false, true]⟩, ⟨["x", "y"], #[false, false, true, false]⟩,
      ⟨["x", "y"], #[true, true, false, false]⟩]
  combined := ⟨["x", "y"], #[true, true, true, true]⟩
  conclusion := ⟨[], #[true]⟩
  text := "1 = 0"

/-- Were the three consistent, the text would not say that the unit is nothing. -/
theorem elimination_keeps_consistency_emptyUniverse :
    (((draw 16 [⟨"xy", "0"⟩, ⟨"x", "xy"⟩, ⟨"x", "1"⟩] ["x", "y"] ["y", "x"]).run
        .off).outcome = .ok emptyUniverse ∧ ["y", "x"].Perm ["x", "y"]) ∧
      ¬ Consistent [⟨"xy", "0"⟩, ⟨"x", "xy"⟩, ⟨"x", "1"⟩] ["x", "y"] := by
  have hdrawn : ((draw 16 [⟨"xy", "0"⟩, ⟨"x", "xy"⟩, ⟨"x", "1"⟩] ["x", "y"] ["y", "x"]).run
      .off).outcome = .ok emptyUniverse := by cbv
  refine ⟨⟨hdrawn, List.Perm.swap _ _ _⟩, fun hconsistent => ?_⟩
  have htext := ((elimination_keeps_consistency hdrawn).2.2 (List.Perm.swap _ _ _)).2.2 hconsistent
  exact absurd htext (by decide)

end Inference

end ElectiveCalculus
