/-
# The strongest conclusion

The conclusion of an inference is about the variables that are left, and says of
them exactly what the premises say: an assignment to them is forbidden when no
assignment to all variables agrees with it and satisfies every premise. Whatever
else can be written in the variables that are left follows from the premises
exactly when it follows from the conclusion.

The parts are the tables of the premises, their union and the elimination. Each of
them is described by the valuations it excludes, so that the places of variables,
which the elimination changes, play no part here.
-/

import ElectiveCalculus.Inference.Conclusion
import ElectiveCalculus.Proofs.Conjunction
import ElectiveCalculus.Proofs.Elimination
import ElectiveCalculus.Proofs.Grammar
import ElectiveCalculus.Proofs.Normalization
import Mathlib

namespace ElectiveCalculus

variable {settings : Log.Settings} {limit : Int} {scope : List SymbolName}

/-- Both sides of a premise can be read, and an assignment to the variables of a scope
satisfies the equation between them. -/
def Premise.SatisfiedBy (premise : Premise) (scope : List SymbolName)
    (assignment : Assignment) : Prop :=
  ∃ lhs rhs : Expr, Expr.parse premise.lhs = .ok lhs ∧ Expr.parse premise.rhs = .ok rhs ∧
    Sides.SatisfiedBy ⟨lhs, rhs⟩ scope assignment

/-- An assignment to the variables of a scope gives every variable of another scope the
bit that `restricted` gives it there. -/
def Assignment.Extends (assignment : Assignment) (scope : List SymbolName)
    (restricted : Assignment) (narrow : List SymbolName) : Prop :=
  ∀ name ∈ narrow, (scope.zip assignment).lookup name = (narrow.zip restricted).lookup name

/-- An equation between two expressions follows from premises: every assignment to the
variables of a scope that satisfies the premises satisfies the equation. -/
def Inference.Entails (premises : List Premise) (scope : List SymbolName)
    (sides : Sides Expr) : Prop :=
  ∀ assignment : Assignment, assignment.length = scope.length →
    (∀ premise ∈ premises, premise.SatisfiedBy scope assignment) →
      sides.SatisfiedBy scope assignment

theorem extends_map_iff {narrow : List SymbolName} (hnarrow : ∀ name ∈ narrow, name ∈ scope)
    (valuation other : Valuation) :
    Assignment.Extends (scope.map other) scope (narrow.map valuation) narrow ↔
      ∀ name ∈ narrow, other name = valuation name := by
  apply forall₂_congr
  intro name hname
  rw [lookup_zip_map_of_mem other (hnarrow name hname), lookup_zip_map_of_mem valuation hname,
    Option.some.injEq]

/-- What holds of every assignment that extends one to fewer variables holds of every
valuation that agrees with it there. -/
theorem forall_extends_iff (hdistinct : scope.Nodup) {narrow : List SymbolName}
    (hnarrow : ∀ name ∈ narrow, name ∈ scope) (valuation : Valuation)
    (property : Assignment → Prop) :
    (∀ assignment : Assignment, assignment.length = scope.length →
        assignment.Extends scope (narrow.map valuation) narrow → property assignment) ↔
      ∀ other : Valuation, (∀ name ∈ narrow, other name = valuation name) →
        property (scope.map other) := by
  rw [forall_assignment_iff hdistinct]
  apply forall_congr'
  intro other
  rw [extends_map_iff hnarrow valuation other]

/-! ## Premises -/

theorem Sides.outcome_read_eq_ok_iff {sides : Sides Text} {lhs rhs : Expr} :
    (sides.read.run settings).outcome = .ok ⟨lhs, rhs⟩ ↔
      Expr.parse sides.lhs = .ok lhs ∧ Expr.parse sides.rhs = .ok rhs := by
  simp only [Sides.read, Log.Logged.outcome_bind_eq_ok_iff, Expr.outcome_read_eq_ok_iff,
    Log.Logged.run_pure]
  apply Iff.intro
  · intro h
    rcases h with ⟨left, hleft, right, hright, h⟩
    cases h
    exact ⟨hleft, hright⟩
  · intro h
    rcases h with ⟨hlhs, hrhs⟩
    exact ⟨lhs, hlhs, rhs, hrhs, rfl⟩

theorem Premise.outcome_normalize_eq_ok_iff {premise : Premise} {equation : Equation} :
    ((Premise.normalize limit scope premise).run settings).outcome = .ok equation ↔
      ∃ lhs rhs : Expr, (Expr.parse premise.lhs = .ok lhs ∧ Expr.parse premise.rhs = .ok rhs) ∧
        Admissible limit scope ∧
          ((∀ name ∈ lhs.symbols, name ∈ scope) ∧ ∀ name ∈ rhs.symbols, name ∈ scope) ∧
            equation = Equation.ofSides scope lhs rhs := by
  rw [Premise.normalize, Log.Logged.outcome_bind_eq_ok_iff]
  apply Iff.intro
  · intro h
    rcases h with ⟨⟨lhs, rhs⟩, hread, hnormal⟩
    exact ⟨lhs, rhs, Sides.outcome_read_eq_ok_iff.mp hread,
      Equation.outcome_normalize_eq_ok_iff.mp hnormal⟩
  · intro h
    rcases h with ⟨lhs, rhs, hread, hnormal⟩
    exact ⟨⟨lhs, rhs⟩, Sides.outcome_read_eq_ok_iff.mpr hread,
      Equation.outcome_normalize_eq_ok_iff.mpr hnormal⟩

/-- A premise over a scope is satisfied where the Boolean readings of its sides agree. -/
theorem Premise.satisfiedBy_map_iff {premise : Premise} {lhs rhs : Expr}
    (hlhs : Expr.parse premise.lhs = .ok lhs) (hrhs : Expr.parse premise.rhs = .ok rhs)
    (hleft : ∀ name ∈ lhs.symbols, name ∈ scope) (hright : ∀ name ∈ rhs.symbols, name ∈ scope)
    (valuation : Valuation) :
    premise.SatisfiedBy scope (scope.map valuation) ↔
      lhs.holds valuation = rhs.holds valuation := by
  rw [← Sides.satisfiedBy_iff hleft hright]
  apply Iff.intro
  · intro h
    rcases h with ⟨lhs', rhs', hlhs', hrhs', hsatisfied⟩
    obtain rfl := Except.ok.inj (hlhs.symm.trans hlhs')
    obtain rfl := Except.ok.inj (hrhs.symm.trans hrhs')
    exact hsatisfied
  · exact fun hsatisfied => ⟨lhs, rhs, hlhs, hrhs, hsatisfied⟩

/-- The table of a premise excludes the valuations that do not satisfy it. -/
theorem Premise.excludes_iff {premise : Premise} {equation : Equation}
    (hnormal : ((Premise.normalize limit scope premise).run settings).outcome = .ok equation)
    (valuation : Valuation) :
    equation.excludes valuation = true ↔ ¬ premise.SatisfiedBy scope (scope.map valuation) := by
  obtain ⟨lhs, rhs, ⟨hlhs, hrhs⟩, -, ⟨hleft, hright⟩, rfl⟩ :=
    Premise.outcome_normalize_eq_ok_iff.mp hnormal
  rw [Equation.excludes_ofSides hleft hright,
    Premise.satisfiedBy_map_iff hlhs hrhs hleft hright, bne_iff_ne]

/-- Some table of the premises excludes a valuation exactly when it does not satisfy
them all. -/
theorem Premise.exists_excludes_iff {premises : List Premise} {equations : List Equation}
    (hnormal : List.Forall₂ (fun premise equation =>
      ((Premise.normalize limit scope premise).run settings).outcome = .ok equation)
      premises equations)
    (valuation : Valuation) :
    (∃ equation ∈ equations, equation.excludes valuation = true) ↔
      ¬ ∀ premise ∈ premises, premise.SatisfiedBy scope (scope.map valuation) := by
  apply Iff.intro
  · intro h hall
    rcases h with ⟨equation, hequation, hexcluded⟩
    rcases exists_of_forall₂ hnormal.flip equation hequation with ⟨premise, hpremise, hstep⟩
    exact (Premise.excludes_iff hstep valuation).mp hexcluded (hall premise hpremise)
  · intro hunsatisfied
    push Not at hunsatisfied
    rcases hunsatisfied with ⟨premise, hpremise, hfails⟩
    rcases exists_of_forall₂ hnormal premise hpremise with ⟨equation, hequation, hstep⟩
    exact ⟨equation, hequation, (Premise.excludes_iff hstep valuation).mpr hfails⟩

namespace Inference

/-! ## The steps of an inference -/

/-- The steps of an inference, without what they write. -/
theorem outcome_draw {premises : List Premise} {eliminated : List SymbolName} :
    ((draw limit premises scope eliminated).run settings).outcome =
      (premises.mapM fun premise =>
        ((Premise.normalize limit scope premise).run settings).outcome).bind fun normalized =>
      ((Equation.conjoinAll normalized).run settings).outcome.bind fun combined =>
      ((combined.eliminateAll eliminated).run settings).outcome.bind fun conclusion =>
        .ok ⟨normalized, combined, conclusion, conclusion.render⟩ := by
  rw [draw, Log.Logged.outcome_bind, Log.Logged.outcome_mapM]
  simp only [Log.Logged.outcome_bind, Log.Logged.run_write, Log.Logged.run_pure]
  rfl

theorem outcome_draw_eq_ok_iff {premises : List Premise} {eliminated : List SymbolName}
    {inference : Inference} :
    ((draw limit premises scope eliminated).run settings).outcome = .ok inference ↔
      List.Forall₂ (fun premise equation =>
          ((Premise.normalize limit scope premise).run settings).outcome = .ok equation)
        premises inference.premises ∧
      ((Equation.conjoinAll inference.premises).run settings).outcome = .ok inference.combined ∧
      ((inference.combined.eliminateAll eliminated).run settings).outcome =
        .ok inference.conclusion ∧
      inference.text = inference.conclusion.render := by
  simp only [outcome_draw, bind_eq_ok_iff, mapM_eq_ok_iff]
  apply Iff.intro
  · intro h
    rcases h with ⟨normalized, hnormalized, combined, hcombined, conclusion, hconclusion, h⟩
    cases h
    exact ⟨hnormalized, hcombined, hconclusion, rfl⟩
  · intro h
    rcases h with ⟨hnormalized, hcombined, hconclusion, htext⟩
    refine ⟨_, hnormalized, _, hcombined, _, hconclusion, ?_⟩
    rw [← htext]

variable {premises : List Premise} {eliminated : List SymbolName} {inference : Inference}

/-- The tables of some premises are conjoined to a complete table over the variables, which
were admitted. It excludes the valuations that leave some premise unsatisfied. -/
theorem exists_combined {equations : List Equation} (hpremises : premises ≠ [])
    (hnormal : List.Forall₂ (fun premise equation =>
      ((Premise.normalize limit scope premise).run settings).outcome = .ok equation)
      premises equations) :
    ∃ combined, ((Equation.conjoinAll equations).run settings).outcome = .ok combined ∧
      Admissible limit scope ∧ combined.scope = scope ∧ combined.IsComplete ∧
        ∀ valuation : Valuation, combined.excludes valuation = true ↔
          ¬ ∀ premise ∈ premises, premise.SatisfiedBy scope (scope.map valuation) := by
  have htable : ∀ equation ∈ equations,
      Admissible limit scope ∧ equation.scope = scope ∧ equation.IsComplete := by
    intro equation hequation
    obtain ⟨premise, -, hpremise⟩ := exists_of_forall₂ hnormal.flip equation hequation
    obtain ⟨lhs, rhs, -, hadmitted, -, rfl⟩ := Premise.outcome_normalize_eq_ok_iff.mp hpremise
    exact ⟨hadmitted, rfl, Equation.isComplete_ofVerdicts _ _⟩
  cases equations with
  | nil => exact absurd (List.forall₂_nil_right_iff.mp hnormal) hpremises
  | cons first rest =>
      obtain ⟨hadmitted, hscope, hcomplete⟩ := htable first List.mem_cons_self
      have hsame : ∀ equation ∈ rest, equation.scope = first.scope := fun equation hequation =>
        (htable equation (List.mem_cons_of_mem _ hequation)).2.1.trans hscope.symm
      obtain ⟨hunion, hcomplete', -⟩ := Equation.foldl_union_spec hcomplete hsame
      refine ⟨_, Equation.outcome_conjoinAll_cons_eq_ok_iff.mpr ⟨hsame, rfl⟩, hadmitted,
        hunion.trans hscope, hcomplete', fun valuation => ?_⟩
      rw [Equation.excludes_foldl_union_iff hcomplete hsame]
      exact Premise.exists_excludes_iff hnormal valuation

/-- Nothing is inferred from no premises. -/
theorem premises_ne_nil
    (hdrawn : ((draw limit premises scope eliminated).run settings).outcome = .ok inference) :
    premises ≠ [] := by
  obtain ⟨hnormal, hcombined, -, -⟩ := outcome_draw_eq_ok_iff.mp hdrawn
  rintro rfl
  rw [List.forall₂_nil_left_iff.mp hnormal] at hcombined
  cases hcombined

/-- The combined equation is a complete table over the variables, which were admitted,
and excludes the valuations that leave some premise unsatisfied. -/
theorem combined_spec
    (hdrawn : ((draw limit premises scope eliminated).run settings).outcome = .ok inference) :
    Admissible limit scope ∧ inference.combined.scope = scope ∧ inference.combined.IsComplete ∧
      ∀ valuation : Valuation, inference.combined.excludes valuation = true ↔
        ¬ ∀ premise ∈ premises, premise.SatisfiedBy scope (scope.map valuation) := by
  obtain ⟨hnormal, hcombined, -, -⟩ := outcome_draw_eq_ok_iff.mp hdrawn
  obtain ⟨combined, hcombined', hspec⟩ := exists_combined (premises_ne_nil hdrawn) hnormal
  obtain rfl := Except.ok.inj (hcombined'.symm.trans hcombined)
  exact hspec

/-- The conclusion is what elimination leaves of a complete table over distinct variables. -/
theorem conclusion_of_combined
    (hdrawn : ((draw limit premises scope eliminated).run settings).outcome = .ok inference) :
    inference.combined.IsComplete ∧ inference.combined.scope.Nodup ∧
      ((inference.combined.eliminateAll eliminated).run settings).outcome =
        .ok inference.conclusion := by
  obtain ⟨hadmitted, hscope, hcomplete, -⟩ := combined_spec hdrawn
  obtain ⟨-, -, heliminated, -⟩ := outcome_draw_eq_ok_iff.mp hdrawn
  exact ⟨hcomplete, hscope ▸ hadmitted.distinct, heliminated⟩

/-- The conclusion excludes a valuation when no valuation with the same bits for the
variables left over satisfies the premises. -/
theorem conclusion_spec
    (hdrawn : ((draw limit premises scope eliminated).run settings).outcome = .ok inference) :
    inference.conclusion.scope = scope.filter (fun name => name ∉ eliminated) ∧
      ∀ valuation : Valuation, inference.conclusion.excludes valuation = true ↔
        ¬ ∃ other : Valuation,
          (∀ name ∈ inference.conclusion.scope, other name = valuation name) ∧
            ∀ premise ∈ premises, premise.SatisfiedBy scope (scope.map other) := by
  obtain ⟨-, hscope, -, hcombined⟩ := combined_spec hdrawn
  obtain ⟨hcomplete, hdistinct, heliminated⟩ := conclusion_of_combined hdrawn
  obtain ⟨hleft, -, hexcludes⟩ := Equation.eliminateAll_spec hcomplete hdistinct heliminated
  refine ⟨hscope ▸ hleft, fun valuation => ?_⟩
  rw [hexcludes valuation]
  simp only [hcombined, not_exists, not_and]

/-- The variables left over are admitted, as variables of the premises that they are. -/
theorem admissible_conclusion
    (hdrawn : ((draw limit premises scope eliminated).run settings).outcome = .ok inference) :
    Admissible limit inference.conclusion.scope ∧
      ∀ name ∈ inference.conclusion.scope, name ∈ scope := by
  have hadmitted := (combined_spec hdrawn).1
  rw [(conclusion_spec hdrawn).1]
  apply And.intro
  · exact hadmitted.filter _
  · intro name hname
    exact (List.mem_filter.mp hname).1

/-- What `conclusion_spec` says of valuations, said of assignments. -/
theorem isForbidden_conclusion_iff
    (hdrawn : ((draw limit premises scope eliminated).run settings).outcome = .ok inference)
    {rest : Assignment} (hwidth : rest.length = inference.conclusion.scope.length) :
    inference.conclusion.isForbidden rest = .ok true ↔
      ¬ ∃ assignment : Assignment, assignment.length = scope.length ∧
        assignment.Extends scope rest inference.conclusion.scope ∧
          ∀ premise ∈ premises, premise.SatisfiedBy scope assignment := by
  have hadmitted := (combined_spec hdrawn).1
  have hleft := admissible_conclusion hdrawn
  rcases exists_valuation hleft.1.distinct hwidth with ⟨valuation, rfl⟩
  rw [isForbidden_map, Except.ok.injEq, (conclusion_spec hdrawn).2 valuation]
  simp only [not_exists, not_and]
  exact (forall_extends_iff hadmitted.distinct hleft.2 valuation fun assignment =>
    ¬ ∀ premise ∈ premises, premise.SatisfiedBy scope assignment).symm

/-- An equation in the variables left over holds wherever the premises do exactly when
every row of its table that is forbidden is forbidden in the conclusion. -/
theorem entails_iff
    (hdrawn : ((draw limit premises scope eliminated).run settings).outcome = .ok inference)
    {lhs rhs : Expr} (hlhs : ∀ name ∈ lhs.symbols, name ∈ inference.conclusion.scope)
    (hrhs : ∀ name ∈ rhs.symbols, name ∈ inference.conclusion.scope) :
    Entails premises scope ⟨lhs, rhs⟩ ↔
      ∀ rest : Assignment, rest.length = inference.conclusion.scope.length →
        (Equation.ofSides inference.conclusion.scope lhs rhs).isForbidden rest = .ok true →
          inference.conclusion.isForbidden rest = .ok true := by
  have hadmitted := (combined_spec hdrawn).1
  have hexcludes := (conclusion_spec hdrawn).2
  have hleft := admissible_conclusion hdrawn
  have hsatisfied (other : Valuation) : Sides.SatisfiedBy ⟨lhs, rhs⟩ scope (scope.map other) ↔
      lhs.holds other = rhs.holds other :=
    Sides.satisfiedBy_iff (fun name hname => hleft.2 name (hlhs name hname))
      (fun name hname => hleft.2 name (hrhs name hname)) other
  apply Iff.intro
  · intro hentails rest hwidth hforbidden
    rcases exists_valuation hleft.1.distinct hwidth with ⟨valuation, rfl⟩
    have hdiffer := (Equation.isForbidden_ofSides hlhs hrhs valuation).mp hforbidden
    rw [isForbidden_map, Except.ok.injEq, hexcludes valuation]
    intro hmodel
    rcases hmodel with ⟨other, hagree, hpremises⟩
    have hequal := (hsatisfied other).mp (hentails _ (List.length_map _) hpremises)
    -- the sides read the two valuations alike, having only symbols that are left over
    rw [Expr.holds_congr fun name hname => hagree name (hlhs name (Expr.mem_symbols.mpr hname)),
      Expr.holds_congr fun name hname => hagree name (hrhs name (Expr.mem_symbols.mpr hname))]
      at hequal
    exact hdiffer hequal
  · intro hcovers assignment hlength hpremises
    rcases exists_valuation hadmitted.distinct hlength with ⟨other, rfl⟩
    rw [hsatisfied other]
    by_contra hdiffer
    have hforbidden := hcovers _ (List.length_map _)
      ((Equation.isForbidden_ofSides hlhs hrhs other).mpr hdiffer)
    rw [isForbidden_map, Except.ok.injEq, hexcludes other] at hforbidden
    exact hforbidden ⟨other, fun _ _ => rfl, hpremises⟩

/-- The conclusion is the strongest equation in the variables left over. It forbids an
assignment to them exactly when no assignment to all variables agrees with it and
satisfies the premises, and an equation in the variables left over follows from the
premises exactly when the conclusion forbids what it forbids. -/
theorem conclusion_is_strongest
    (hdrawn : ((draw limit premises scope eliminated).run settings).outcome = .ok inference) :
    inference.conclusion.scope = scope.filter (fun name => name ∉ eliminated) ∧
      (∀ rest : Assignment, rest.length = inference.conclusion.scope.length →
        (inference.conclusion.isForbidden rest = .ok true ↔
          ¬ ∃ assignment : Assignment, assignment.length = scope.length ∧
            assignment.Extends scope rest inference.conclusion.scope ∧
              ∀ premise ∈ premises, premise.SatisfiedBy scope assignment)) ∧
      ∀ lhs rhs : Expr, (∀ name ∈ lhs.symbols ++ rhs.symbols,
          name ∈ inference.conclusion.scope) →
        ∃ table, ((Equation.normalize limit lhs rhs inference.conclusion.scope).run
            settings).outcome = .ok table ∧
          (Entails premises scope ⟨lhs, rhs⟩ ↔
            ∀ rest : Assignment, rest.length = inference.conclusion.scope.length →
              table.isForbidden rest = .ok true →
                inference.conclusion.isForbidden rest = .ok true) := by
  apply And.intro (conclusion_spec hdrawn).1
  apply And.intro
  · intro rest hwidth
    exact isForbidden_conclusion_iff hdrawn hwidth
  · intro lhs rhs hsymbols
    have hlhs : ∀ name ∈ lhs.symbols, name ∈ inference.conclusion.scope := fun name hname =>
      hsymbols name (List.mem_append_left _ hname)
    have hrhs : ∀ name ∈ rhs.symbols, name ∈ inference.conclusion.scope := fun name hname =>
      hsymbols name (List.mem_append_right _ hname)
    have htable : ((Equation.normalize limit lhs rhs inference.conclusion.scope).run
        settings).outcome = .ok (Equation.ofSides inference.conclusion.scope lhs rhs) :=
      Equation.outcome_normalize_eq_ok_iff.mpr
        ⟨(admissible_conclusion hdrawn).1, ⟨hlhs, hrhs⟩, rfl⟩
    exact ⟨_, htable, entails_iff hdrawn hlhs hrhs⟩

/-- All y are x and all z are y, over the variables x, y and z, without y. -/
def barbara : Inference where
  premises :=
    [⟨["x", "y", "z"], #[false, false, true, true, false, false, false, false]⟩,
      ⟨["x", "y", "z"], #[false, true, false, false, false, true, false, false]⟩]
  combined := ⟨["x", "y", "z"], #[false, true, true, true, false, true, false, false]⟩
  conclusion := ⟨["x", "z"], #[false, true, false, false]⟩
  text := "(1-x)z = 0"

/-- That all z are x follows, because its table is the conclusion itself. -/
theorem conclusion_is_strongest_barbara :
    ((draw 16 [⟨"y", "yx"⟩, ⟨"z", "zy"⟩] ["x", "y", "z"] ["y"]).run .off).outcome =
        .ok barbara ∧
      Entails [⟨"y", "yx"⟩, ⟨"z", "zy"⟩] ["x", "y", "z"]
        ⟨.sym "z", .product (.sym "z") (.sym "x")⟩ := by
  have hdrawn : ((draw 16 [⟨"y", "yx"⟩, ⟨"z", "zy"⟩] ["x", "y", "z"] ["y"]).run
      .off).outcome = .ok barbara := by cbv
  apply And.intro hdrawn
  rcases (conclusion_is_strongest hdrawn).2.2 (.sym "z") (.product (.sym "z") (.sym "x"))
    (by decide) with ⟨table, htable, hentails⟩
  have hconcluded : ((Equation.normalize 16 (.sym "z") (.product (.sym "z") (.sym "x"))
      barbara.conclusion.scope).run .off).outcome = .ok barbara.conclusion := by cbv
  rw [Except.ok.inj (hconcluded.symm.trans htable)] at hentails
  exact hentails.mpr fun rest _ hforbidden => hforbidden

end Inference

end ElectiveCalculus
