/-
# The equations that the calculus makes

Tables may come from outside and lack rows, and a missing row forbids nothing. The
operations make no such table of their own: whatever they are run on one after
another, as long as every equation came out of such a run itself, its variables are
distinct letters and its table is complete. So no operation ever asks for a row that
is not there, and a limit of any size leaves room for twenty-six variables only.
-/

import ElectiveCalculus.Proofs.Conclusion
import Mathlib

namespace ElectiveCalculus

/-! ## Letters -/

/-- The names that the written notation has. -/
def alphabet : List SymbolName :=
  (List.range 26).map fun place => [UInt16.ofNat (0x61 + place)]

theorem SymbolName.mem_alphabet {name : SymbolName} (hletter : name.isLetter = true) :
    name ∈ alphabet := by
  match name, hletter with
  | [unit], hunit =>
    simp only [SymbolName.isLetter, CodeUnit.isLetter, Bool.and_eq_true, decide_eq_true_eq,
      UInt16.le_iff_toNat_le] at hunit
    have hfirst : 0x61 ≤ unit.toNat := hunit.1
    have hlast : unit.toNat ≤ 0x7A := hunit.2
    apply List.mem_map.mpr
    have hplace : unit.toNat - 0x61 ∈ List.range 26 := List.mem_range.mpr (by omega)
    refine ⟨unit.toNat - 0x61, hplace, ?_⟩
    rw [Nat.add_sub_cancel' hfirst, UInt16.ofNat_toNat]

/-- Distinct letters are no more than there are in the alphabet. -/
theorem length_le_of_letters {scope : List SymbolName}
    (hletters : ∀ name ∈ scope, SymbolName.isLetter name = true) (hdistinct : scope.Nodup) :
    scope.length ≤ 26 := by
  have halphabet : scope ⊆ alphabet := fun name hname =>
    SymbolName.mem_alphabet (hletters name hname)
  exact hdistinct.length_le_of_subset halphabet

namespace Equation

/-! ## What every operation preserves -/

/-- Distinct letters as variables and one row for every assignment to them. -/
structure WellFormed (equation : Equation) : Prop where
  letters : ∀ name ∈ equation.scope, SymbolName.isLetter name = true
  distinct : equation.scope.Nodup
  complete : equation.IsComplete

section Steps

variable {settings : Log.Settings} {equation result : Equation}

theorem WellFormed.of_normalize {limit : Int} {lhs rhs : Expr} {scope : List SymbolName}
    (hrun : ((normalize limit lhs rhs scope).run settings).outcome = .ok result) :
    result.WellFormed := by
  rcases outcome_normalize_eq_ok_iff.mp hrun with ⟨hadmitted, -, rfl⟩
  exact ⟨hadmitted.letters, hadmitted.distinct, isComplete_ofVerdicts _ _⟩

theorem WellFormed.conjoin (hequation : equation.WellFormed) {other : Equation}
    (hrun : ((equation.conjoin other).run settings).outcome = .ok result) :
    result.WellFormed := by
  rcases outcome_conjoin_eq_ok_iff.mp hrun with ⟨-, rfl⟩
  exact ⟨hequation.letters, hequation.distinct, isComplete_union other hequation.complete⟩

theorem WellFormed.conjoinAll {equations : List Equation}
    (hequations : ∀ equation ∈ equations, equation.WellFormed)
    (hrun : ((conjoinAll equations).run settings).outcome = .ok result) :
    result.WellFormed := by
  cases equations with
  | nil => cases hrun
  | cons first rest =>
      rw [Equation.conjoinAll, Log.Logged.outcome_foldlM] at hrun
      apply foldlM_invariant WellFormed _ (hequations first List.mem_cons_self) hrun
      intro total other next _ htotal hnext
      exact htotal.conjoin hnext

theorem WellFormed.eliminate (hequation : equation.WellFormed) {symbol : SymbolName}
    (hrun : ((equation.eliminate symbol).run settings).outcome = .ok result) :
    result.WellFormed := by
  rcases outcome_eliminate_eq_ok_iff.mp hrun with ⟨-, rfl⟩
  have hscope := scope_project_idxOf equation symbol
  refine ⟨?_, ?_, isComplete_project _⟩
  · rw [hscope]
    intro name hname
    exact hequation.letters name (List.mem_of_mem_erase hname)
  · rw [hscope]
    exact hequation.distinct.erase symbol

theorem WellFormed.eliminateAll (hequation : equation.WellFormed) {symbols : List SymbolName}
    (hrun : ((equation.eliminateAll symbols).run settings).outcome = .ok result) :
    result.WellFormed := by
  rw [Equation.eliminateAll, Log.Logged.outcome_foldlM] at hrun
  apply foldlM_invariant WellFormed _ hequation hrun
  intro total symbol next _ htotal hnext
  exact htotal.eliminate hnext

end Steps

end Equation

namespace Inference

variable {settings : Log.Settings} {limit : Int} {premises : List Premise}
  {scope eliminated : List SymbolName} {inference : Inference}

theorem wellFormed_premises
    (hdrawn : ((draw limit premises scope eliminated).run settings).outcome = .ok inference) :
    ∀ equation ∈ inference.premises, equation.WellFormed := by
  intro equation hequation
  have hnormal := (outcome_draw_eq_ok_iff.mp hdrawn).1
  rcases exists_of_forall₂ hnormal.flip equation hequation with ⟨premise, -, hpremise⟩
  rcases Log.Logged.outcome_bind_eq_ok_iff settings |>.mp hpremise with ⟨sides, -, hrun⟩
  exact Equation.WellFormed.of_normalize hrun

theorem wellFormed_combined
    (hdrawn : ((draw limit premises scope eliminated).run settings).outcome = .ok inference) :
    inference.combined.WellFormed :=
  Equation.WellFormed.conjoinAll (wellFormed_premises hdrawn) (outcome_draw_eq_ok_iff.mp hdrawn).2.1

theorem wellFormed_conclusion
    (hdrawn : ((draw limit premises scope eliminated).run settings).outcome = .ok inference) :
    inference.conclusion.WellFormed :=
  (wellFormed_combined hdrawn).eliminateAll (outcome_draw_eq_ok_iff.mp hdrawn).2.2.1

end Inference

namespace Equation

/-! ## Runs of any length -/

/-- An equation that comes out of the operations of the calculus, run on equations that
came out of them. Every run has settings of its own, and every normalization its own
limit. -/
inductive Reachable : Equation → Prop
  | normalized {settings : Log.Settings} {limit : Int} {lhs rhs : Expr}
      {scope : List SymbolName} {result : Equation}
      (hrun : ((normalize limit lhs rhs scope).run settings).outcome = .ok result) :
      Reachable result
  | conjoined {settings : Log.Settings} {first second result : Equation}
      (hfirst : Reachable first) (hsecond : Reachable second)
      (hrun : ((first.conjoin second).run settings).outcome = .ok result) : Reachable result
  | conjoinedAll {settings : Log.Settings} {equations : List Equation} {result : Equation}
      (hequations : ∀ equation ∈ equations, Reachable equation)
      (hrun : ((conjoinAll equations).run settings).outcome = .ok result) : Reachable result
  | eliminated {settings : Log.Settings} {equation result : Equation} {symbol : SymbolName}
      (hequation : Reachable equation)
      (hrun : ((equation.eliminate symbol).run settings).outcome = .ok result) :
      Reachable result
  | eliminatedAll {settings : Log.Settings} {equation result : Equation}
      {symbols : List SymbolName} (hequation : Reachable equation)
      (hrun : ((equation.eliminateAll symbols).run settings).outcome = .ok result) :
      Reachable result
  | premise {settings : Log.Settings} {limit : Int} {premises : List Premise}
      {scope eliminated : List SymbolName} {inference : Inference} {equation : Equation}
      (hdrawn : ((Inference.draw limit premises scope eliminated).run settings).outcome =
        .ok inference)
      (hpremise : equation ∈ inference.premises) : Reachable equation
  | combined {settings : Log.Settings} {limit : Int} {premises : List Premise}
      {scope eliminated : List SymbolName} {inference : Inference}
      (hdrawn : ((Inference.draw limit premises scope eliminated).run settings).outcome =
        .ok inference) : Reachable inference.combined
  | conclusion {settings : Log.Settings} {limit : Int} {premises : List Premise}
      {scope eliminated : List SymbolName} {inference : Inference}
      (hdrawn : ((Inference.draw limit premises scope eliminated).run settings).outcome =
        .ok inference) : Reachable inference.conclusion

/-- The induction is on how the equation was made; each operation has its own lemma. -/
theorem Reachable.wellFormed {equation : Equation} (hreachable : Reachable equation) :
    equation.WellFormed := by
  induction hreachable with
  | normalized hrun => exact WellFormed.of_normalize hrun
  | conjoined _ _ hrun ihFirst _ => exact ihFirst.conjoin hrun
  | conjoinedAll _ hrun ih => exact WellFormed.conjoinAll ih hrun
  | eliminated _ hrun ih => exact ih.eliminate hrun
  | eliminatedAll _ hrun ih => exact ih.eliminateAll hrun
  | premise hdrawn hpremise => exact Inference.wellFormed_premises hdrawn _ hpremise
  | combined hdrawn => exact Inference.wellFormed_combined hdrawn
  | conclusion hdrawn => exact Inference.wellFormed_conclusion hdrawn

/-! ## Rows that are looked up -/

section Lookups

variable {settings : Log.Settings} {equation : Equation}

/-- Conjunction reads each row of the first table at the same number in the second one. -/
theorem outcome_conjoin_rows {other : Equation} (hcomplete : equation.IsComplete)
    (hother : other.IsComplete) (hscope : equation.scope = other.scope) :
    ∃ joint, ((equation.conjoin other).run settings).outcome = .ok joint ∧
      joint.forbidden.size = equation.forbidden.size ∧
        ∀ row < equation.forbidden.size, ∃ first second,
          equation.forbidden[row]? = some first ∧ other.forbidden[row]? = some second ∧
            joint.forbidden[row]? = some (first || second) := by
  refine ⟨_, outcome_conjoin_eq_ok_iff.mpr ⟨hscope, rfl⟩, ?_, ?_⟩
  · rw [union, Array.size_mapIdx]
  · intro row hrow
    have hsize : equation.forbidden.size = other.forbidden.size := by
      rw [hcomplete, hother, hscope]
    have hrow' : row < other.forbidden.size := hsize ▸ hrow
    refine ⟨_, _, Array.getElem?_eq_getElem hrow, Array.getElem?_eq_getElem hrow', ?_⟩
    rw [union, Array.getElem?_mapIdx, Array.getElem?_eq_getElem hrow,
      Array.getD_eq_getD_getElem?, Array.getElem?_eq_getElem hrow']
    rfl

/-- Elimination reads two rows of the table for each row that it makes. -/
theorem outcome_eliminate_rows {symbol : SymbolName} (hcomplete : equation.IsComplete)
    (hsymbol : symbol ∈ equation.scope) :
    ∃ result, ((equation.eliminate symbol).run settings).outcome = .ok result ∧
      ∀ rest : Assignment, rest.length = result.scope.length → ∃ first second,
        equation.forbidden[Assignment.row
            (rest.insertIdx (equation.scope.idxOf symbol) false)]? = some first ∧
          equation.forbidden[Assignment.row
            (rest.insertIdx (equation.scope.idxOf symbol) true)]? = some second ∧
            result.forbidden[rest.row]? = some (first && second) := by
  refine ⟨_, outcome_eliminate_eq_ok_iff.mpr ⟨hsymbol, rfl⟩, fun rest hwidth => ?_⟩
  have hplace : equation.scope.idxOf symbol < equation.scope.length :=
    List.idxOf_lt_length_of_mem hsymbol
  have hrest : rest.length = equation.scope.length - 1 := by
    rw [hwidth, project, ofVerdicts, List.length_eraseIdx_of_lt hplace]
  have hinserted (bit : Bool) :
      (rest.insertIdx (equation.scope.idxOf symbol) bit).length = equation.scope.length := by
    rw [List.length_insertIdx_of_le_length (by omega)]
    omega
  refine ⟨_, _, hcomplete.getElem?_row (hinserted false), hcomplete.getElem?_row (hinserted true),
    ?_⟩
  rw [(isComplete_project _).getElem?_row hwidth, forbids_project hwidth]

end Lookups

/-- Every equation that the calculus makes has distinct letters as variables, twenty-six
at the most, and a complete table. Every row is there that is looked up to answer for an
assignment, to conjoin it with another such equation over the same variables, or to
eliminate one of its variables. -/
theorem Reachable.every_row_is_there {equation : Equation} (hreachable : Reachable equation)
    (settings : Log.Settings) :
    (equation.scope.Nodup ∧ (∀ name ∈ equation.scope, SymbolName.isLetter name = true) ∧
        equation.scope.length ≤ 26 ∧
          equation.forbidden.size = 2 ^ equation.scope.length) ∧
      (∀ values : Assignment, values.length = equation.scope.length →
        ∃ verdict, equation.forbidden[values.row]? = some verdict ∧
          equation.isForbidden values = .ok verdict) ∧
      (∀ other : Equation, Reachable other → equation.scope = other.scope →
        ∃ joint, ((equation.conjoin other).run settings).outcome = .ok joint ∧
          joint.forbidden.size = equation.forbidden.size ∧
            ∀ row < equation.forbidden.size, ∃ first second,
              equation.forbidden[row]? = some first ∧ other.forbidden[row]? = some second ∧
                joint.forbidden[row]? = some (first || second)) ∧
      ∀ symbol ∈ equation.scope,
        ∃ result, ((equation.eliminate symbol).run settings).outcome = .ok result ∧
          ∀ rest : Assignment, rest.length = result.scope.length → ∃ first second,
            equation.forbidden[Assignment.row
                (rest.insertIdx (equation.scope.idxOf symbol) false)]? = some first ∧
              equation.forbidden[Assignment.row
                (rest.insertIdx (equation.scope.idxOf symbol) true)]? = some second ∧
                result.forbidden[rest.row]? = some (first && second) := by
  have hformed := hreachable.wellFormed
  refine ⟨⟨hformed.distinct, hformed.letters, ?_, hformed.complete⟩, ?_, ?_, ?_⟩
  · exact length_le_of_letters hformed.letters hformed.distinct
  · intro values hwidth
    refine ⟨_, hformed.complete.getElem?_row hwidth, ?_⟩
    rw [isForbidden, if_pos hwidth]
  · intro other hother hscope
    exact outcome_conjoin_rows hformed.complete hother.wellFormed.complete hscope
  · intro symbol hsymbol
    exact outcome_eliminate_rows hformed.complete hsymbol

/-- The table of `x = xy` answers for `x` without `y` with a row that is there. -/
theorem every_row_is_there_affirmative :
    Reachable ⟨["x", "y"], #[false, false, true, false]⟩ ∧
      ∃ verdict, (#[false, false, true, false] : Array Bool)[Assignment.row [true, false]]? =
        some verdict ∧
          isForbidden ⟨["x", "y"], #[false, false, true, false]⟩ [true, false] =
            .ok verdict := by
  have hrun : ((normalize 16 (.sym "x") (.product (.sym "x") (.sym "y")) ["x", "y"]).run
      .off).outcome = .ok ⟨["x", "y"], #[false, false, true, false]⟩ := by cbv
  have hreachable := Reachable.normalized hrun
  exact ⟨hreachable, (hreachable.every_row_is_there .off).2.1 [true, false] rfl⟩

end Equation

end ElectiveCalculus
