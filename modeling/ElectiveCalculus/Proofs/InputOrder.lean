/-
# The order of the inputs of an inference

Three lists go into an inference, and none of their orders comes out. The premises are
asserted together, so their order and their repetitions do not matter; the symbols are
eliminated together; and the variables are only the order in which a table lists its
rows. Two inferences from the same premises about the same variables therefore exclude
the same valuations, whatever the tables in between were. Over one list of variables
the results are even the same tables.
-/

import ElectiveCalculus.Proofs.InferenceFaults
import Mathlib

namespace ElectiveCalculus

variable {limit : Int} {scope scope' : List SymbolName}

theorem Admissible.of_perm (hadmitted : Admissible limit scope) (hscope : scope'.Perm scope) :
    Admissible limit scope' where
  withinLimit := hscope.length_eq ▸ hadmitted.withinLimit
  letters name hname := hadmitted.letters name (hscope.mem_iff.mp hname)
  distinct := hscope.nodup_iff.mpr hadmitted.distinct

namespace Premise

variable {premise : Premise}

theorem IsOver.mono (hover : premise.IsOver scope) (hscope : scope ⊆ scope') :
    premise.IsOver scope' := by
  rcases hover with ⟨lhs, rhs, hlhs, hrhs, hsymbols⟩
  exact ⟨lhs, rhs, hlhs, hrhs, fun name hname => hscope (hsymbols name hname)⟩

/-- Which valuations satisfy a premise does not depend on the variables it is said to be
about, as long as they include its symbols. -/
theorem IsOver.satisfiedBy_iff (hover : premise.IsOver scope) (hscope : scope ⊆ scope')
    (valuation : Valuation) :
    premise.SatisfiedBy scope' (scope'.map valuation) ↔
      premise.SatisfiedBy scope (scope.map valuation) := by
  rcases hover with ⟨lhs, rhs, hlhs, hrhs, hsymbols⟩
  obtain ⟨hleft, hright⟩ := List.forall_mem_append.mp hsymbols
  rw [satisfiedBy_map_iff hlhs hrhs hleft hright,
    satisfiedBy_map_iff hlhs hrhs (fun name hname => hscope (hleft name hname))
      fun name hname => hscope (hright name hname)]

end Premise

namespace Inference

variable {settings settings' : Log.Settings} {premises premises' : List Premise}
  {eliminated eliminated' : List SymbolName} {inference inference' : Inference}

theorem Drawable.of_same_inputs (h : Drawable limit premises scope eliminated)
    (hpremises : ∀ premise, premise ∈ premises' ↔ premise ∈ premises)
    (hscope : scope'.Perm scope) (heliminated : eliminated'.Perm eliminated) :
    Drawable limit premises' scope' eliminated' where
  nonempty := by
    obtain ⟨premise, hpremise⟩ := List.exists_mem_of_ne_nil premises h.nonempty
    exact List.ne_nil_of_mem ((hpremises premise).mpr hpremise)
  readable premise hpremise :=
    (h.readable premise ((hpremises premise).mp hpremise)).mono hscope.symm.subset
  admitted := h.admitted.of_perm hscope
  distinct := heliminated.nodup_iff.mpr h.distinct
  known symbol hsymbol := hscope.mem_iff.mpr (h.known symbol (heliminated.mem_iff.mp hsymbol))

/-- The same valuations satisfy the same premises about the same variables. -/
theorem satisfiedBy_same_inputs
    (hdrawn : ((draw limit premises scope eliminated).run settings).outcome = .ok inference)
    (hpremises : ∀ premise, premise ∈ premises' ↔ premise ∈ premises)
    (hscope : scope'.Perm scope) (valuation : Valuation) :
    (∀ premise ∈ premises', premise.SatisfiedBy scope' (scope'.map valuation)) ↔
      ∀ premise ∈ premises, premise.SatisfiedBy scope (scope.map valuation) := by
  have hreadable := ((exists_outcome_draw_iff settings).mp ⟨inference, hdrawn⟩).readable
  apply forall_congr'
  intro premise
  rw [hpremises premise]
  apply forall_congr'
  intro hpremise
  exact (hreadable premise hpremise).satisfiedBy_iff hscope.symm.subset valuation

/-- Inferences from the same inputs in other orders exclude the same valuations. -/
theorem excludes_same_inputs
    (hdrawn : ((draw limit premises scope eliminated).run settings).outcome = .ok inference)
    (hdrawn' : ((draw limit premises' scope' eliminated').run settings').outcome =
      .ok inference')
    (hpremises : ∀ premise, premise ∈ premises' ↔ premise ∈ premises)
    (hscope : scope'.Perm scope) (heliminated : eliminated'.Perm eliminated)
    (valuation : Valuation) :
    inference'.combined.excludes valuation = inference.combined.excludes valuation ∧
      inference'.conclusion.excludes valuation = inference.conclusion.excludes valuation := by
  have hsatisfied := satisfiedBy_same_inputs hdrawn hpremises hscope
  apply And.intro
  · rw [Bool.eq_iff_iff, (combined_spec hdrawn').2.2.2, (combined_spec hdrawn).2.2.2, hsatisfied]
  · obtain ⟨hleft, hexcludes⟩ := conclusion_spec hdrawn
    obtain ⟨hleft', hexcludes'⟩ := conclusion_spec hdrawn'
    have hmem (name : SymbolName) :
        name ∈ inference'.conclusion.scope ↔ name ∈ inference.conclusion.scope := by
      rw [hleft, hleft', List.mem_filter, List.mem_filter, hscope.mem_iff]
      simp only [heliminated.mem_iff]
    rw [Bool.eq_iff_iff, hexcludes', hexcludes]
    simp only [hmem, hsatisfied]

/-- An inference from the same premises over the same list of variables has the same tables,
however the premises and the eliminated symbols are listed. -/
theorem eq_of_same_inputs
    (hdrawn : ((draw limit premises scope eliminated).run settings).outcome = .ok inference)
    (hdrawn' : ((draw limit premises' scope eliminated').run settings').outcome =
      .ok inference')
    (hpremises : ∀ premise, premise ∈ premises' ↔ premise ∈ premises)
    (heliminated : eliminated'.Perm eliminated) :
    inference'.combined = inference.combined ∧ inference'.conclusion = inference.conclusion := by
  have hexcludes := excludes_same_inputs hdrawn hdrawn' hpremises (.refl scope) heliminated
  have hcombined := wellFormed_combined hdrawn
  have hcombined' := wellFormed_combined hdrawn'
  have hconclusion := wellFormed_conclusion hdrawn
  have hconclusion' := wellFormed_conclusion hdrawn'
  apply And.intro
  · apply Equation.eq_of_excludes hcombined'.complete hcombined.complete hcombined'.distinct
    · rw [(combined_spec hdrawn').2.1, (combined_spec hdrawn).2.1]
    · exact fun valuation => (hexcludes valuation).1
  · apply Equation.eq_of_excludes hconclusion'.complete hconclusion.complete
      hconclusion'.distinct
    · rw [(conclusion_spec hdrawn').1, (conclusion_spec hdrawn).1]
      simp only [heliminated.mem_iff]
    · exact fun valuation => (hexcludes valuation).2

/-- An inference depends on its premises as a set and on its eliminated symbols in no order,
and it depends on the order of its variables only as far as that is the order in which its
tables list them. -/
theorem inputs_in_any_order
    (hdrawn : ((draw limit premises scope eliminated).run settings).outcome = .ok inference)
    (settings' : Log.Settings) :
    (∀ (premises' : List Premise) (eliminated' : List SymbolName),
      (∀ premise, premise ∈ premises' ↔ premise ∈ premises) → eliminated'.Perm eliminated →
        ∃ inference', ((draw limit premises' scope eliminated').run settings').outcome =
            .ok inference' ∧
          inference'.combined = inference.combined ∧
          inference'.conclusion = inference.conclusion ∧
          inference'.text = inference.text) ∧
    ∀ scope' : List SymbolName, scope'.Perm scope →
      inference.conclusion.scope = scope.filter (fun name => name ∉ eliminated) ∧
      ∃ inference', ((draw limit premises scope' eliminated).run settings').outcome =
          .ok inference' ∧
        inference'.conclusion.scope = scope'.filter (fun name => name ∉ eliminated) ∧
        ∀ valuation : Valuation, ∃ verdict,
          inference'.conclusion.isForbidden (inference'.conclusion.scope.map valuation) =
            .ok verdict ∧
          inference.conclusion.isForbidden (inference.conclusion.scope.map valuation) =
            .ok verdict := by
  have hdrawable := (exists_outcome_draw_iff settings).mp ⟨inference, hdrawn⟩
  apply And.intro
  · intro premises' eliminated' hpremises heliminated
    obtain ⟨inference', hdrawn'⟩ := (exists_outcome_draw_iff settings').mpr
      (hdrawable.of_same_inputs hpremises (.refl scope) heliminated)
    obtain ⟨hcombined, hconclusion⟩ := eq_of_same_inputs hdrawn hdrawn' hpremises heliminated
    refine ⟨inference', hdrawn', hcombined, hconclusion, ?_⟩
    rw [(outcome_draw_eq_ok_iff.mp hdrawn').2.2.2, (outcome_draw_eq_ok_iff.mp hdrawn).2.2.2,
      hconclusion]
  · intro scope' hscope
    obtain ⟨inference', hdrawn'⟩ := (exists_outcome_draw_iff settings').mpr
      (hdrawable.of_same_inputs (fun _ => Iff.rfl) hscope (.refl eliminated))
    refine ⟨(conclusion_spec hdrawn).1, inference', hdrawn', (conclusion_spec hdrawn').1,
      fun valuation => ⟨_, isForbidden_map _ valuation, ?_⟩⟩
    rw [isForbidden_map, (excludes_same_inputs hdrawn hdrawn' (fun _ => Iff.rfl) hscope
      (.refl eliminated) valuation).2]

/-- All y are x and all z are y, said in the other order and one of them twice; and said about
the variables z, y and x. -/
theorem inputs_in_any_order_barbara :
    ((draw 16 [⟨"y", "yx"⟩, ⟨"z", "zy"⟩] ["x", "y", "z"] ["y"]).run .off).outcome =
        .ok barbara ∧
      (∃ inference', ((draw 16 [⟨"z", "zy"⟩, ⟨"y", "yx"⟩, ⟨"z", "zy"⟩] ["x", "y", "z"]
          ["y"]).run .everything).outcome = .ok inference' ∧
        inference'.conclusion = barbara.conclusion) ∧
      ∃ inference', ((draw 16 [⟨"y", "yx"⟩, ⟨"z", "zy"⟩] ["z", "y", "x"] ["y"]).run
          .everything).outcome = .ok inference' ∧
        inference'.conclusion.scope = ["z", "x"] ∧
        ∀ valuation : Valuation,
          inference'.conclusion.isForbidden (inference'.conclusion.scope.map valuation) =
            barbara.conclusion.isForbidden (barbara.conclusion.scope.map valuation) := by
  have hdrawn : ((draw 16 [⟨"y", "yx"⟩, ⟨"z", "zy"⟩] ["x", "y", "z"] ["y"]).run
      .off).outcome = .ok barbara := by cbv
  obtain ⟨hreordered, hturned⟩ := inputs_in_any_order hdrawn .everything
  obtain ⟨inference', hdrawn', -, hconclusion, -⟩ :=
    hreordered [⟨"z", "zy"⟩, ⟨"y", "yx"⟩, ⟨"z", "zy"⟩] ["y"] (by simp [or_comm]) (.refl _)
  obtain ⟨-, turned, hdrawn'', hleft, hverdicts⟩ := hturned ["z", "y", "x"] (by decide)
  refine ⟨hdrawn, ⟨inference', hdrawn', hconclusion⟩, turned, hdrawn'', ?_, fun valuation => ?_⟩
  · rw [hleft]
    decide
  · obtain ⟨verdict, hturned', hbarbara⟩ := hverdicts valuation
    rw [hturned', hbarbara]

end Inference

end ElectiveCalculus
