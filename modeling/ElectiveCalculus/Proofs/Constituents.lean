/-
# Constituents

The constituent of an assignment is the product of every variable with bit one and the
complement of every variable with bit zero. It is worth one under that assignment and
zero under every other one, so different constituents are never worth one together, and the
sum of the forbidden ones is worth one exactly where the equation forbids.

A table is therefore known from the constituents that it forbids, and these are the summands
of the equation that it stands for. An equation that forbids nothing has zero for its only
summand.
-/

import ElectiveCalculus.Proofs.CanonicalForm
import ElectiveCalculus.Proofs.Join
import ElectiveCalculus.Proofs.Reachability
import ElectiveCalculus.Proofs.RoundTrip
import ElectiveCalculus.Proofs.RowNumbers
import Mathlib

namespace ElectiveCalculus

/-- Of distinct items one at most is the given one. -/
theorem sum_map_indicator {α : Type} [DecidableEq α] {items : List α} (hnodup : items.Nodup)
    (item : α) [Decidable (item ∈ items)] :
    (items.map fun other => if other = item then (1 : Int) else 0).sum =
      if item ∈ items then 1 else 0 := by
  rw [List.sum_map_ite_eq, hnodup.count]
  simp

namespace Expr

theorem holds_ofFactors (factors : List Expr) (valuation : Valuation) :
    (ofFactors factors).holds valuation = factors.all fun factor => factor.holds valuation := by
  induction factors with
  | nil => rfl
  | cons factor rest ih =>
      by_cases hrest : rest = []
      · subst hrest
        simp [ofFactors]
      · rw [ofFactors_cons factor hrest, holds, ih, List.all_cons]

theorem symbols_const_subset {scope : List SymbolName} (value : Bool) :
    ∀ name ∈ (const value).symbols, name ∈ scope :=
  fun _ hname => absurd hname List.not_mem_nil

end Expr

namespace Equation

/-! ## One constituent -/

/-- The product of the literals of an assignment, and the unit when there is no variable. -/
def constituent (scope : List SymbolName) (assignment : Assignment) : Expr :=
  Expr.ofFactors ((scope.zip assignment).map fun (name, bit) => literal name bit)

theorem holds_literal (name : SymbolName) (bit : Bool) (valuation : Valuation) :
    (literal name bit).holds valuation = (valuation name == bit) := by
  cases bit <;> simp [literal, Expr.holds]

theorem occurrences_literal (name : SymbolName) (bit : Bool) :
    (literal name bit).occurrences = [name] := by
  cases bit <;> rfl

theorem render_literal_ne_nil {name : SymbolName} (hletter : SymbolName.isLetter name = true)
    (bit : Bool) : (literal name bit).render ≠ [] := by
  cases bit with
  | false => simp [literal, Expr.render, complementOpening]
  | true =>
      rintro rfl
      cases hletter

section Constituent

variable {scope : List SymbolName} {assignment : Assignment}

/-- Every variable occurs in a constituent once, in the order of the variables. -/
theorem occurrences_constituent (hwidth : assignment.length = scope.length) :
    (constituent scope assignment).occurrences = scope := by
  rw [constituent, Expr.occurrences_ofFactors]
  induction scope generalizing assignment with
  | nil => rfl
  | cons name rest ih =>
      cases assignment with
      | nil => cases hwidth
      | cons bit bits =>
          rw [List.zip_cons_cons, List.map_cons, List.flatMap_cons, occurrences_literal,
            ih (Nat.succ.inj hwidth)]
          rfl

/-- A constituent holds under its own assignment alone. -/
theorem holds_constituent (hwidth : assignment.length = scope.length) (valuation : Valuation) :
    (constituent scope assignment).holds valuation = decide (scope.map valuation = assignment) := by
  rw [constituent, Expr.holds_ofFactors]
  induction scope generalizing assignment with
  | nil =>
      obtain rfl := List.eq_nil_of_length_eq_zero hwidth
      rfl
  | cons name rest ih =>
      cases assignment with
      | nil => cases hwidth
      | cons bit bits =>
          rw [List.zip_cons_cons, List.map_cons, List.all_cons, holds_literal,
            ih (Nat.succ.inj hwidth)]
          simp [Bool.beq_eq_decide_eq]

theorem isRightNested_constituent (scope : List SymbolName) (assignment : Assignment) :
    (constituent scope assignment).isRightNested = true := by
  apply Expr.isRightNested_ofFactors
  intro factor hfactor
  rcases List.mem_map.mp hfactor with ⟨⟨name, bit⟩, -, rfl⟩
  cases bit <;> exact ⟨rfl, rfl⟩

/-- A constituent is rendered as the expression that it is. Every literal leaves a sign, so
the unit stands for no literals only. -/
theorem renderConstituent_eq (hletters : ∀ name ∈ scope, SymbolName.isLetter name = true)
    (hwidth : assignment.length = scope.length) :
    renderConstituent scope assignment = (constituent scope assignment).render := by
  match scope, assignment, hwidth with
  | [], [], _ => rfl
  | name :: rest, bit :: bits, _ =>
    have hrender : (constituent (name :: rest) (bit :: bits)).render =
        ((name :: rest).zip (bit :: bits)).flatMap fun (name, bit) =>
          (literal name bit).render := by
      rw [constituent, List.zip_cons_cons, List.map_cons, Expr.render_ofFactors]
      simp only [List.map_cons, List.map_map, List.flatten_cons, List.flatMap_def]
      rfl
    have hsign : (constituent (name :: rest) (bit :: bits)).render ≠ [] := by
      rw [hrender, List.zip_cons_cons, List.flatMap_cons]
      have hname := hletters name List.mem_cons_self
      exact fun h => render_literal_ne_nil hname bit (List.append_eq_nil_iff.mp h).1
    rw [renderConstituent, ← hrender]
    cases htext : (constituent (name :: rest) (bit :: bits)).render with
    | nil => exact absurd htext hsign
    | cons unit text => rfl

end Constituent

/-! ## Forbidden constituents -/

variable {equation : Equation}

/-- The assignments that an equation forbids, in ascending order of their rows. -/
def forbiddenAssignments (equation : Equation) : List Assignment :=
  (Assignment.all equation.scope.length).filter equation.forbids

/-- The expressions whose sum an equation sets to zero. -/
def summands (equation : Equation) : List Expr :=
  match equation.forbiddenAssignments with
  | [] => [.const false]
  | forbidden => forbidden.map (constituent equation.scope)

theorem mem_forbiddenAssignments {assignment : Assignment} :
    assignment ∈ equation.forbiddenAssignments ↔
      assignment.length = equation.scope.length ∧ equation.forbids assignment = true := by
  rw [forbiddenAssignments, List.mem_filter, Assignment.mem_all]

theorem mem_summands {expr : Expr} :
    expr ∈ equation.summands ↔
      (equation.forbiddenAssignments = [] ∧ expr = .const false) ∨
        ∃ assignment ∈ equation.forbiddenAssignments,
          constituent equation.scope assignment = expr := by
  rw [summands]
  cases equation.forbiddenAssignments with
  | nil => simp
  | cons first rest =>
      show expr ∈ (first :: rest).map (constituent equation.scope) ↔ _
      rw [List.mem_map]
      simp

theorem summands_ne_nil (equation : Equation) : equation.summands ≠ [] := by
  rw [summands]
  cases equation.forbiddenAssignments with
  | nil => exact List.cons_ne_nil _ _
  | cons first rest => exact List.cons_ne_nil _ _

/-- Some summand holds exactly where the equation forbids. -/
theorem exists_summand_holds_iff (valuation : Valuation) :
    (∃ expr ∈ equation.summands, expr.holds valuation = true) ↔
      equation.excludes valuation = true := by
  apply Iff.intro
  · intro h
    rcases h with ⟨expr, hexpr, hholds⟩
    rcases mem_summands.mp hexpr with ⟨-, rfl⟩ | ⟨assignment, hassignment, rfl⟩
    · cases hholds
    · obtain ⟨hwidth, hforbids⟩ := mem_forbiddenAssignments.mp hassignment
      rw [holds_constituent hwidth, decide_eq_true_eq] at hholds
      rw [excludes, hholds]
      exact hforbids
  · intro hexcludes
    have hwidth : (equation.scope.map valuation).length = equation.scope.length :=
      List.length_map _
    refine ⟨_, mem_summands.mpr (Or.inr ⟨equation.scope.map valuation, ?_, rfl⟩), ?_⟩
    · exact mem_forbiddenAssignments.mpr ⟨hwidth, hexcludes⟩
    · rw [holds_constituent hwidth, decide_eq_true_eq]

/-- Only a tautology has no forbidden constituent. -/
theorem forbiddenAssignments_eq_nil_iff (hformed : equation.WellFormed) :
    equation.forbiddenAssignments = [] ↔ equation.isTautology = true := by
  rw [isTautology_iff hformed.complete hformed.distinct, List.eq_nil_iff_forall_not_mem]
  simp only [mem_forbiddenAssignments, not_and, Bool.not_eq_true]
  exact forall_assignment_iff hformed.distinct

/-- The rows that are rendered are the forbidden ones, and spell the forbidden assignments. -/
theorem map_ofIndex_forbiddenRows (hcomplete : equation.IsComplete)
    (hwidth : equation.scope.length ≤ 32) :
    (equation.forbiddenRows.map fun (row : Nat) => Assignment.ofIndex row equation.scope.length) =
      equation.forbiddenAssignments := by
  rw [forbiddenAssignments, ← Assignment.map_ofIndex_range hwidth, List.filter_map, forbiddenRows,
    hcomplete]
  congr 1
  apply List.filter_congr
  intro row hrow
  rw [Function.comp_apply, forbids, Assignment.row_ofIndex hwidth (List.mem_range.mp hrow)]

/-- A zero term adds nothing, so it does not matter that the empty sum is written as one. -/
theorem sum_map_summands (weight : Expr → Int) (hzero : weight (.const false) = 0) :
    (equation.summands.map weight).sum =
      (equation.forbiddenAssignments.map fun assignment =>
        weight (constituent equation.scope assignment)).sum := by
  rw [summands]
  cases equation.forbiddenAssignments with
  | nil => simp [hzero]
  | cons first rest => rw [List.map_map]; rfl

/-- The sum of the summands is the verdict: of the forbidden constituents one holds at most. -/
theorem sum_summands (equation : Equation) (valuation : Valuation) :
    (equation.summands.map fun expr => if expr.holds valuation then (1 : Int) else 0).sum =
      if equation.excludes valuation then 1 else 0 := by
  have hindicators : (equation.summands.map fun expr =>
      if expr.holds valuation then (1 : Int) else 0).sum =
        (equation.forbiddenAssignments.map fun assignment =>
          if assignment = equation.scope.map valuation then (1 : Int) else 0).sum := by
    rw [sum_map_summands _ rfl]
    apply congrArg
    apply List.map_congr_left
    intro assignment hassignment
    rw [holds_constituent (mem_forbiddenAssignments.mp hassignment).1]
    simp only [decide_eq_true_eq, @eq_comm _ assignment]
  have hnodup : equation.forbiddenAssignments.Nodup := (Assignment.nodup_all _).filter _
  have hmem : equation.scope.map valuation ∈ equation.forbiddenAssignments ↔
      equation.excludes valuation = true := by
    rw [mem_forbiddenAssignments, List.length_map, excludes, eq_self_iff_true, true_and]
  rw [hindicators, sum_map_indicator hnodup, if_congr hmem rfl rfl]

/-! ## The table of the summands -/

theorem mem_scope_of_mem_summands {expr : Expr} (hexpr : expr ∈ equation.summands) :
    ∀ name ∈ expr.symbols, name ∈ equation.scope := by
  intro name hname
  rcases mem_summands.mp hexpr with ⟨-, rfl⟩ | ⟨assignment, hassignment, rfl⟩
  · cases hname
  · have hwidth := (mem_forbiddenAssignments.mp hassignment).1
    rwa [Expr.mem_symbols, occurrences_constituent hwidth] at hname

/-- The equations that each summand is zero make the table together. -/
theorem outcome_conjoinAll_summands {settings : Log.Settings} (hformed : equation.WellFormed) :
    ((conjoinAll (equation.summands.map fun expr =>
      ofSides equation.scope expr (.const false))).run settings).outcome = .ok equation := by
  apply outcome_conjoinAll_eq hformed.complete hformed.distinct
  · rw [ne_eq, List.map_eq_nil_iff]
    exact summands_ne_nil equation
  · intro table htable
    rcases List.mem_map.mp htable with ⟨expr, -, rfl⟩
    exact ⟨rfl, isComplete_ofSides _ _ _⟩
  · intro valuation
    have hverdict : ∀ expr ∈ equation.summands,
        (ofSides equation.scope expr (.const false)).excludes valuation = expr.holds valuation := by
      intro expr hexpr
      rw [excludes_ofSides (mem_scope_of_mem_summands hexpr) (Expr.symbols_const_subset false)]
      exact Bool.bne_false _
    rw [← exists_summand_holds_iff]
    simp only [List.mem_map, exists_exists_and_eq_and]
    exact exists_congr fun expr => and_congr_right fun hexpr => by rw [hverdict expr hexpr]

end Equation

end ElectiveCalculus
