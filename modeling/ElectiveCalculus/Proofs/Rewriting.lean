/-
# Rules that keep what they replace

Rules are sound one node at a time: the answer for a node is related to that node. A relation
that passes from children to nodes then relates every expression to what the rules make of it,
whichever kinds of nodes have rules. Below a node that is replaced nothing is visited, and its
rule speaks for all of it; beside it the visit goes on.

The relation that matters here is to have the same outcome of evaluation, that is the same
value or the same unbound symbol. Normalization evaluates and looks no further into its
sides, so rules that are sound for all assignments leave its table and its error alone.

Rules may change a state, and then the answer for a node may depend on what was visited
before. It is enough that every answer is sound, from whatever state.
-/

import ElectiveCalculus.Expr.Replacement
import ElectiveCalculus.Proofs.Evaluation
import Mathlib

namespace ElectiveCalculus

/-- A relation between expressions that passes from the children of nodes to the nodes. -/
structure Expr.IsCongruence (related : Expr → Expr → Prop) : Prop where
  sym (name : SymbolName) : related (.sym name) (.sym name)
  const (value : Bool) : related (.const value) (.const value)
  not {arg result : Expr} : related arg result → related (.not arg) (.not result)
  product {left right first second : Expr} :
    related left first → related right second →
      related (.product left right) (.product first second)

namespace Replacement

variable {m : Type → Type} {σ : Type}

/-- Every node is related to the answer of its rule, if its kind has a rule. What is seen of
an answer depends on the effects that rules may have. -/
structure Relates (rules : Replacement m) (seen : m Expr → Expr)
    (related : Expr → Expr → Prop) : Prop where
  sym : ∀ rule, rules.sym = some rule → ∀ name, related (.sym name) (seen (rule name))
  const : ∀ rule, rules.const = some rule → ∀ value, related (.const value) (seen (rule value))
  not : ∀ rule, rules.not = some rule → ∀ arg, related (.not arg) (seen (rule arg))
  product : ∀ rule, rules.product = some rule →
    ∀ left right, related (.product left right) (seen (rule left right))

/-- The answer of a rule that is run from a state. -/
def answerFrom (state : σ) (answer : StateM σ Expr) : Expr := (answer.run state).1

/-- Rules without effects as rules that leave every state as it is. -/
def withState (σ : Type) (rules : Replacement Id) : Replacement (StateM σ) where
  sym := rules.sym.map fun rule name => pure (rule name)
  const := rules.const.map fun rule value => pure (rule value)
  not := rules.not.map fun rule arg => pure (rule arg)
  product := rules.product.map fun rule left right => pure (rule left right)

theorem Relates.withState {rules : Replacement Id} {related : Expr → Expr → Prop}
    (hrules : rules.Relates Id.run related) (state : σ) :
    (rules.withState σ).Relates (answerFrom state) related where
  sym _ hanswer := by
    obtain ⟨rule, hrule, rfl⟩ := Option.map_eq_some_iff.mp hanswer
    exact hrules.sym rule hrule
  const _ hanswer := by
    obtain ⟨rule, hrule, rfl⟩ := Option.map_eq_some_iff.mp hanswer
    exact hrules.const rule hrule
  not _ hanswer := by
    obtain ⟨rule, hrule, rfl⟩ := Option.map_eq_some_iff.mp hanswer
    exact hrules.not rule hrule
  product _ hanswer := by
    obtain ⟨rule, hrule, rfl⟩ := Option.map_eq_some_iff.mp hanswer
    exact hrules.product rule hrule

end Replacement

namespace Expr

variable {σ : Type} {related : Expr → Expr → Prop}

theorem run_replaceNodesM_withState (rules : Replacement Id) (expr : Expr) (state : σ) :
    (expr.replaceNodesM (rules.withState σ)).run state = (expr.replaceNodes rules, state) := by
  induction expr generalizing state with
  | sym name =>
      rw [replaceNodes, replaceNodesM, replaceNodesM, Replacement.withState]
      cases rules.sym <;> rfl
  | const value =>
      rw [replaceNodes, replaceNodesM, replaceNodesM, Replacement.withState]
      cases rules.const <;> rfl
  | not arg ih =>
      cases hrule : rules.not with
      | none =>
          rw [run_replaceNodesM_not (by rw [Replacement.withState, hrule]; rfl), ih, replaceNodes,
            replaceNodes, replaceNodesM, hrule]
          rfl
      | some rule =>
          rw [replaceNodes, replaceNodesM, replaceNodesM, hrule, Replacement.withState, hrule]
          rfl
  | product left right ihLeft ihRight =>
      cases hrule : rules.product with
      | none =>
          rw [run_replaceNodesM_product (by rw [Replacement.withState, hrule]; rfl), ihLeft]
          dsimp only
          rw [ihRight, replaceNodes, replaceNodes, replaceNodes, replaceNodesM, hrule]
          rfl
      | some rule =>
          rw [replaceNodes, replaceNodesM, replaceNodesM, hrule, Replacement.withState, hrule]
          rfl

/-- An expression is related to what rules make of it, if every node with a rule is. The
state that a node is visited in is left over from the nodes before it, so the induction is
for all states. -/
theorem related_replaceNodesM (hcongruence : IsCongruence related)
    {rules : Replacement (StateM σ)}
    (hrules : ∀ state, rules.Relates (Replacement.answerFrom state) related) (expr : Expr)
    (state : σ) : related expr ((expr.replaceNodesM rules).run state).1 := by
  induction expr generalizing state with
  | sym name =>
      rw [replaceNodesM]
      cases hrule : rules.sym with
      | none => exact hcongruence.sym name
      | some rule => exact (hrules state).sym rule hrule name
  | const value =>
      rw [replaceNodesM]
      cases hrule : rules.const with
      | none => exact hcongruence.const value
      | some rule => exact (hrules state).const rule hrule value
  | not arg ih =>
      cases hrule : rules.not with
      | none =>
          rw [run_replaceNodesM_not hrule]
          exact hcongruence.not (ih state)
      | some rule =>
          rw [replaceNodesM, hrule]
          exact (hrules state).not rule hrule arg
  | product left right ihLeft ihRight =>
      cases hrule : rules.product with
      | none =>
          rw [run_replaceNodesM_product hrule]
          exact hcongruence.product (ihLeft state) (ihRight _)
      | some rule =>
          rw [replaceNodesM, hrule]
          exact (hrules state).product rule hrule left right

theorem related_replaceNodes (hcongruence : IsCongruence related) {rules : Replacement Id}
    (hrules : rules.Relates Id.run related) (expr : Expr) :
    related expr (expr.replaceNodes rules) := by
  have hrelated := related_replaceNodesM hcongruence hrules.withState expr ()
  rwa [run_replaceNodesM_withState] at hrelated

/-! ## The outcome of evaluation -/

section Values

variable {R : Type} [OfNat R 0] [OfNat R 1] [Sub R] [Mul R]

/-- Two expressions have the same value, or the same symbol is reported as unbound. -/
def SameOutcome (scope : List SymbolName) (values : List R) (expr result : Expr) : Prop :=
  result.evaluate scope values = expr.evaluate scope values

theorem isCongruence_sameOutcome (scope : List SymbolName) (values : List R) :
    IsCongruence (SameOutcome scope values) where
  sym _ := rfl
  const _ := rfl
  not harg := by
    rw [SameOutcome, evaluate_eq_valueIn, evaluate_eq_valueIn] at harg ⊢
    rw [valueIn, valueIn, harg]
  product hleft hright := by
    rw [SameOutcome, evaluate_eq_valueIn, evaluate_eq_valueIn] at hleft hright ⊢
    rw [valueIn, valueIn, hleft, hright]

end Values

end Expr

namespace Equation

variable {scope : List SymbolName} {lhs rhs left right : Expr}

/-- Two expressions have the same outcome for every assignment to the variables. -/
def SameRows (scope : List SymbolName) (expr result : Expr) : Prop :=
  ∀ assignment : Assignment, assignment.length = scope.length →
    Expr.SameOutcome scope (bitValues assignment) expr result

theorem tabulate_congr (hleft : SameRows scope lhs left) (hright : SameRows scope rhs right) :
    tabulate left right scope = tabulate lhs rhs scope := by
  have hrows : (Assignment.all scope.length).mapM (sidesDiffer left right scope) =
      (Assignment.all scope.length).mapM (sidesDiffer lhs rhs scope) := by
    apply mapM_congr
    intro assignment hassignment
    have hwidth := Assignment.mem_all.mp hassignment
    rw [sidesDiffer, sidesDiffer, hleft assignment hwidth, hright assignment hwidth]
  rw [tabulate, tabulate, hrows]

/-- Normalization knows its sides by their outcomes only. -/
theorem normalize_congr (hleft : SameRows scope lhs left) (hright : SameRows scope rhs right)
    (limit : Int) : normalize limit left right scope = normalize limit lhs rhs scope := by
  rw [normalize, normalize, tabulate_congr hleft hright]

theorem isCongruence_sameRows (scope : List SymbolName) : Expr.IsCongruence (SameRows scope) where
  sym name _ _ := (Expr.isCongruence_sameOutcome scope _).sym name
  const value _ _ := (Expr.isCongruence_sameOutcome scope _).const value
  not harg assignment hwidth :=
    (Expr.isCongruence_sameOutcome scope _).not (harg assignment hwidth)
  product hleft hright assignment hwidth :=
    (Expr.isCongruence_sameOutcome scope _).product (hleft assignment hwidth)
      (hright assignment hwidth)

end Equation

/-- Rules of any kinds whose every answer has the outcome of the node keep the outcome of every
expression, with effects or without. If they do so for all assignments to the variables, the
normalization of two sides comes to the same table or the same error before and after, and
leaves the same log. -/
theorem Replacement.sound_rules_keep_outcomes {σ R : Type} [OfNat R 0] [OfNat R 1] [Sub R] [Mul R]
    (scope : List SymbolName) :
    (∀ (values : List R) (rules : Replacement Id),
        rules.Relates Id.run (Expr.SameOutcome scope values) →
        ∀ expr : Expr,
          (expr.replaceNodes rules).evaluate scope values = expr.evaluate scope values) ∧
      (∀ (values : List R) (rules : Replacement (StateM σ)),
        (∀ state, rules.Relates (answerFrom state) (Expr.SameOutcome scope values)) →
        ∀ (expr : Expr) (state : σ),
          ((expr.replaceNodesM rules).run state).1.evaluate scope values =
            expr.evaluate scope values) ∧
      (∀ rules : Replacement Id, rules.Relates Id.run (Equation.SameRows scope) →
        ∀ (limit : Int) (lhs rhs : Expr) (settings : Log.Settings),
          (Equation.normalize limit (lhs.replaceNodes rules) (rhs.replaceNodes rules) scope).run
              settings =
            (Equation.normalize limit lhs rhs scope).run settings) ∧
      ∀ rules : Replacement (StateM σ),
        (∀ state, rules.Relates (answerFrom state) (Equation.SameRows scope)) →
        ∀ (limit : Int) (lhs rhs : Expr) (settings : Log.Settings) (state : σ),
          let left := (lhs.replaceNodesM rules).run state
          let right := (rhs.replaceNodesM rules).run left.2
          (Equation.normalize limit left.1 right.1 scope).run settings =
            (Equation.normalize limit lhs rhs scope).run settings := by
  have hrows := Equation.isCongruence_sameRows scope
  refine ⟨?pure, ?stateful, ?purely, ?statefully⟩
  case pure =>
    intro values rules hrules expr
    exact Expr.related_replaceNodes (Expr.isCongruence_sameOutcome scope values) hrules expr
  case stateful =>
    intro values rules hrules expr state
    exact Expr.related_replaceNodesM (Expr.isCongruence_sameOutcome scope values) hrules expr state
  case purely =>
    intro rules hrules limit lhs rhs settings
    rw [Equation.normalize_congr (Expr.related_replaceNodes hrows hrules lhs)
      (Expr.related_replaceNodes hrows hrules rhs)]
  case statefully =>
    intro rules hrules limit lhs rhs settings state
    exact congrArg (fun operation => operation.run settings)
      (Equation.normalize_congr (Expr.related_replaceNodesM hrows hrules lhs state)
        (Expr.related_replaceNodesM hrows hrules rhs _) limit)

/-- Takes the complement of a complement away, and visits nothing inside other complements. -/
def Replacement.cancelComplements : Replacement Id where
  sym := none
  const := none
  not := some fun arg =>
    match arg with
    | .not inner => inner
    | other => .not other
  product := none

theorem Expr.valueIn_not_not {ε : Type} (meaning : SymbolName → Except ε Int) (expr : Expr) :
    (Expr.not (.not expr)).valueIn meaning = expr.valueIn meaning := by
  rw [valueIn, valueIn]
  cases expr.valueIn meaning with
  | error error => rfl
  | ok value => simp [pure, Except.pure, bind, Except.bind]

theorem Replacement.relates_cancelComplements (scope : List SymbolName) :
    cancelComplements.Relates Id.run (Equation.SameRows scope) where
  sym _ hrule := nomatch hrule
  const _ hrule := nomatch hrule
  not _ hrule arg assignment _ := by
    obtain rfl := Option.some.inj hrule
    cases arg with
    | not inner => exact (Expr.valueIn_not_not _ inner).symm
    | sym name => rfl
    | const value => rfl
    | product left right => rfl
  product _ hrule := nomatch hrule

/-- In `(1-(1-x))y = 1` the two complements may be taken away before the table is made, and over
`y` alone, `x` is reported as it is otherwise. -/
theorem Replacement.sound_rules_keep_outcomes_cancelling :
    (Equation.normalize 16 (.product (.sym "x") (.sym "y")) (.const true) ["x", "y"]).run
        .everything =
      (Equation.normalize 16 (.product (.not (.not (.sym "x"))) (.sym "y")) (.const true)
        ["x", "y"]).run .everything ∧
      (Equation.normalize 16 (.product (.sym "x") (.sym "y")) (.const true) ["y"]).run
          .everything =
        (Equation.normalize 16 (.product (.not (.not (.sym "x"))) (.sym "y")) (.const true)
          ["y"]).run .everything := by
  obtain ⟨-, -, hboth, -⟩ := @sound_rules_keep_outcomes Unit Int _ _ _ _ ["x", "y"]
  obtain ⟨-, -, hone, -⟩ := @sound_rules_keep_outcomes Unit Int _ _ _ _ ["y"]
  exact ⟨hboth cancelComplements (relates_cancelComplements _) 16
      (.product (.not (.not (.sym "x"))) (.sym "y")) (.const true) .everything,
    hone cancelComplements (relates_cancelComplements _) 16
      (.product (.not (.not (.sym "x"))) (.sym "y")) (.const true) .everything⟩

end ElectiveCalculus
