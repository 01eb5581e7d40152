/-
# The join of equations

Of two equations over the same variables, the one that forbids more asserts more.
Conjunction makes the least equation that asserts several given ones: it forbids what some
of them forbids and nothing else. A complete table is known from what it forbids, so neither
the order of the equations nor their repetitions nor the way they were grouped is left in it.

No single step shows this by itself, because the rows are those of the first table and the
second one is only looked up. Variables may be repeated here, so tables are compared by
assignments: valuations would miss the rows that tell two variables of one name apart.
-/

import ElectiveCalculus.Proofs.Conjunction
import ElectiveCalculus.Proofs.Extensionality
import Mathlib

namespace ElectiveCalculus.Equation

/-- A complete table over a given list of variables, whose names need not be distinct. -/
structure IsTableOver (equation : Equation) (scope : List SymbolName) : Prop where
  scope_eq : equation.scope = scope
  complete : equation.IsComplete

/-- Whatever an equation forbids, another equation forbids too. -/
def Covers (other equation : Equation) : Prop :=
  ∀ values : Assignment, values.length = equation.scope.length →
    equation.isForbidden values = .ok true → other.isForbidden values = .ok true

/-- The table over a list of variables that forbids what some of several equations forbids. -/
structure IsJoin (scope : List SymbolName) (equations : List Equation) (joint : Equation) :
    Prop where
  table : joint.IsTableOver scope
  forbids_iff : ∀ assignment : Assignment, assignment.length = scope.length →
    (joint.forbids assignment = true ↔
      ∃ equation ∈ equations, equation.forbids assignment = true)

variable {settings : Log.Settings} {scope : List SymbolName} {equations : List Equation}
  {joint : Equation}

theorem isForbidden_eq_ok_true_iff {equation : Equation} {values : Assignment}
    (hwidth : values.length = equation.scope.length) :
    equation.isForbidden values = .ok true ↔ equation.forbids values = true := by
  rw [isForbidden, if_pos hwidth, Except.ok.injEq]

/-! ## The join is unique and depends on the members alone -/

theorem IsJoin.unique {other : Equation} (hjoint : IsJoin scope equations joint)
    (hother : IsJoin scope equations other) : joint = other := by
  apply eq_of_forbids hjoint.table.complete hother.table.complete
    (hjoint.table.scope_eq.trans hother.table.scope_eq.symm)
  intro assignment hwidth
  rw [hjoint.table.scope_eq] at hwidth
  rw [Bool.eq_iff_iff, hjoint.forbids_iff assignment hwidth, hother.forbids_iff assignment hwidth]

/-- Only what the members forbid together matters. -/
theorem IsJoin.congr {others : List Equation} (hjoint : IsJoin scope equations joint)
    (hsame : ∀ assignment : Assignment, assignment.length = scope.length →
      ((∃ equation ∈ equations, equation.forbids assignment = true) ↔
        ∃ equation ∈ others, equation.forbids assignment = true)) :
    IsJoin scope others joint where
  table := hjoint.table
  forbids_iff assignment hwidth :=
    (hjoint.forbids_iff assignment hwidth).trans (hsame assignment hwidth)

theorem IsJoin.of_same_members {others : List Equation} (hjoint : IsJoin scope equations joint)
    (hmembers : ∀ equation, equation ∈ others ↔ equation ∈ equations) :
    IsJoin scope others joint := by
  apply hjoint.congr
  intro assignment _
  simp only [hmembers]

theorem IsTableOver.isJoin_singleton {equation : Equation}
    (hequation : equation.IsTableOver scope) : IsJoin scope [equation] equation where
  table := hequation
  forbids_iff assignment _ := by simp

/-- Equations may be joined in two parts. -/
theorem IsJoin.append_iff {before after : List Equation} {first second : Equation}
    (hfirst : IsJoin scope before first) (hsecond : IsJoin scope after second) :
    IsJoin scope (before ++ after) joint ↔ IsJoin scope [first, second] joint := by
  have hparts (assignment : Assignment) (hwidth : assignment.length = scope.length) :
      (∃ equation ∈ before ++ after, equation.forbids assignment = true) ↔
        ∃ equation ∈ [first, second], equation.forbids assignment = true := by
    simp only [List.mem_append, or_and_right, exists_or, List.mem_pair, exists_eq_left,
      hfirst.forbids_iff assignment hwidth, hsecond.forbids_iff assignment hwidth]
  apply Iff.intro
  · intro hjoint
    exact hjoint.congr hparts
  · intro hjoint
    exact hjoint.congr fun assignment hwidth => (hparts assignment hwidth).symm

/-- The join is the least of the equations that cover all members. -/
theorem IsJoin.covers_iff {other : Equation} (hjoint : IsJoin scope equations joint)
    (htables : ∀ equation ∈ equations, equation.IsTableOver scope)
    (hother : other.scope = scope) :
    other.Covers joint ↔ ∀ equation ∈ equations, other.Covers equation := by
  have hcovers {equation : Equation} (hequation : equation.IsTableOver scope) :
      other.Covers equation ↔ ∀ assignment : Assignment, assignment.length = scope.length →
        equation.forbids assignment = true → other.forbids assignment = true := by
    rw [Covers, hequation.scope_eq]
    refine forall₂_congr fun assignment hwidth => ?_
    rw [isForbidden_eq_ok_true_iff (hequation.scope_eq ▸ hwidth),
      isForbidden_eq_ok_true_iff (hother ▸ hwidth)]
  rw [hcovers hjoint.table]
  apply Iff.intro
  · intro h equation hequation
    rw [hcovers (htables equation hequation)]
    intro assignment hwidth hforbids
    exact h assignment hwidth ((hjoint.forbids_iff assignment hwidth).mpr ⟨_, hequation, hforbids⟩)
  · intro h assignment hwidth hforbids
    obtain ⟨equation, hequation, hmember⟩ := (hjoint.forbids_iff assignment hwidth).mp hforbids
    exact (hcovers (htables equation hequation)).mp (h equation hequation) assignment hwidth hmember

/-! ## Conjunction makes the join -/

theorem exists_isJoin (settings : Log.Settings) (hnonempty : equations ≠ [])
    (htables : ∀ equation ∈ equations, equation.IsTableOver scope) :
    ∃ joint, ((conjoinAll equations).run settings).outcome = .ok joint ∧
      IsJoin scope equations joint := by
  cases equations with
  | nil => contradiction
  | cons first rest =>
      obtain ⟨rfl, hcomplete⟩ := htables first List.mem_cons_self
      have hscope : ∀ equation ∈ rest, equation.scope = first.scope := fun equation hequation =>
        (htables equation (List.mem_cons_of_mem _ hequation)).scope_eq
      obtain ⟨hunion, hcomplete', hforbids⟩ := foldl_union_spec hcomplete hscope
      exact ⟨_, outcome_conjoinAll_cons_eq_ok_iff.mpr ⟨hscope, rfl⟩, ⟨hunion, hcomplete'⟩, hforbids⟩

theorem outcome_conjoinAll_eq_ok_iff_isJoin (hnonempty : equations ≠ [])
    (htables : ∀ equation ∈ equations, equation.IsTableOver scope) :
    ((conjoinAll equations).run settings).outcome = .ok joint ↔
      IsJoin scope equations joint := by
  obtain ⟨made, hmade, hjoin⟩ := exists_isJoin settings hnonempty htables
  rw [hmade, Except.ok.injEq]
  apply Iff.intro
  · rintro rfl
    exact hjoin
  · intro hjoint
    exact hjoin.unique hjoint

/-- Two equations are conjoined as a list of two is. -/
theorem conjoinAll_pair (first second : Equation) :
    conjoinAll [first, second] = first.conjoin second := by
  rw [conjoinAll, List.foldlM_cons]
  exact bind_pure _

section Pair

variable {first second third : Equation}

theorem outcome_conjoin_eq_ok_iff_isJoin (hfirst : first.IsTableOver scope)
    (hsecond : second.IsTableOver scope) :
    ((first.conjoin second).run settings).outcome = .ok joint ↔
      IsJoin scope [first, second] joint := by
  rw [← conjoinAll_pair]
  apply outcome_conjoinAll_eq_ok_iff_isJoin (List.cons_ne_nil _ _)
  simp [hfirst, hsecond]

theorem exists_outcome_conjoin (settings : Log.Settings) (hfirst : first.IsTableOver scope)
    (hsecond : second.IsTableOver scope) :
    ∃ joint, ((first.conjoin second).run settings).outcome = .ok joint ∧
      IsJoin scope [first, second] joint := by
  rw [← conjoinAll_pair]
  apply exists_isJoin settings (List.cons_ne_nil _ _)
  simp [hfirst, hsecond]

/-- Three equations are joined as one list, whichever two of them are conjoined first. -/
theorem isJoin_left_iff_isJoin_right {left right : Equation} (hfirst : first.IsTableOver scope)
    (hthird : third.IsTableOver scope) (hleft : IsJoin scope [first, second] left)
    (hright : IsJoin scope [second, third] right) :
    IsJoin scope [left, third] joint ↔ IsJoin scope [first, right] joint := by
  rw [← IsJoin.append_iff hleft hthird.isJoin_singleton,
    ← IsJoin.append_iff hfirst.isJoin_singleton hright]
  rfl

/-- Conjunction is commutative, associative and idempotent. -/
theorem exists_conjoin_laws (settings : Log.Settings) (hfirst : first.IsTableOver scope)
    (hsecond : second.IsTableOver scope) (hthird : third.IsTableOver scope) :
    ∃ left right joint, ((first.conjoin second).run settings).outcome = .ok left ∧
      ((second.conjoin first).run settings).outcome = .ok left ∧
      ((second.conjoin third).run settings).outcome = .ok right ∧
      ((left.conjoin third).run settings).outcome = .ok joint ∧
      ((first.conjoin right).run settings).outcome = .ok joint ∧
      ((first.conjoin first).run settings).outcome = .ok first := by
  obtain ⟨left, hmade, hleft⟩ := exists_outcome_conjoin settings hfirst hsecond
  obtain ⟨right, hmade', hright⟩ := exists_outcome_conjoin settings hsecond hthird
  obtain ⟨joint, hmade'', hjoint⟩ := exists_outcome_conjoin settings hleft.table hthird
  refine ⟨left, right, joint, hmade, ?_, hmade', hmade'', ?_, ?_⟩
  · rw [outcome_conjoin_eq_ok_iff_isJoin hsecond hfirst]
    exact hleft.of_same_members (by simp [or_comm])
  · rw [outcome_conjoin_eq_ok_iff_isJoin hfirst hright.table]
    exact (isJoin_left_iff_isJoin_right hfirst hthird hleft hright).mp hjoint
  · rw [outcome_conjoin_eq_ok_iff_isJoin hfirst hfirst]
    exact hfirst.isJoin_singleton.of_same_members (by simp)

end Pair

/-- Over distinct variables the join is known from the valuations that it excludes. -/
theorem outcome_conjoinAll_eq {equation : Equation} (hcomplete : equation.IsComplete)
    (hdistinct : equation.scope.Nodup) (hnonempty : equations ≠ [])
    (htables : ∀ table ∈ equations, table.IsTableOver equation.scope)
    (hexcludes : ∀ valuation, equation.excludes valuation = true ↔
      ∃ table ∈ equations, table.excludes valuation = true) :
    ((conjoinAll equations).run settings).outcome = .ok equation := by
  rw [outcome_conjoinAll_eq_ok_iff_isJoin hnonempty htables]
  refine ⟨⟨rfl, hcomplete⟩, ?_⟩
  rw [forall_assignment_iff hdistinct]
  intro valuation
  refine (hexcludes valuation).trans (exists_congr fun table => and_congr_right fun htable => ?_)
  rw [excludes, (htables table htable).scope_eq]

/-! ## Lists that are refused -/

theorem exists_variableMismatch_iff :
    (∃ left right, ((conjoinAll equations).run settings).outcome =
        .error (.variableMismatch left right)) ↔
      equations = [] ∨ ∃ first, equations.head? = some first ∧
        ∃ equation ∈ equations, equation.scope ≠ first.scope := by
  cases equations with
  | nil => simp [conjoinAll]
  | cons first rest =>
      rw [outcome_conjoinAll_cons]
      cases hother : rest.find? fun equation => equation.scope ≠ first.scope with
      | none =>
          have hsame : ∀ equation ∈ rest, equation.scope = first.scope := by
            simpa using List.find?_eq_none.mp hother
          simpa using hsame
      | some other =>
          have hmem := List.mem_of_find?_eq_some hother
          have hdiffers : other.scope ≠ first.scope := by simpa using List.find?_some hother
          refine iff_of_true ⟨_, _, rfl⟩ (Or.inr ⟨first, rfl, other, ?_, hdiffers⟩)
          exact List.mem_cons_of_mem _ hmem

/-- Conjoining complete tables over one list of variables makes their join: it forbids what
some member forbids, and whatever else covers the members covers it. It is the same for every
list of the same members and however they are grouped. Other lists are refused, at their first
member over other variables than the first one has. -/
theorem conjunction_is_join (settings : Log.Settings) (equations : List Equation) :
    (∀ scope : List SymbolName, equations ≠ [] →
      (∀ equation ∈ equations, equation.IsTableOver scope) →
        ∃ joint, ((conjoinAll equations).run settings).outcome = .ok joint ∧
          joint.IsTableOver scope ∧
          (∀ values : Assignment, values.length = scope.length →
            (joint.isForbidden values = .ok true ↔
              ∃ equation ∈ equations, equation.isForbidden values = .ok true)) ∧
          (∀ other : Equation, other.scope = scope →
            (other.Covers joint ↔ ∀ equation ∈ equations, other.Covers equation)) ∧
          (∀ others : List Equation, (∀ equation, equation ∈ others ↔ equation ∈ equations) →
            ((conjoinAll others).run settings).outcome = .ok joint) ∧
          ∀ before after : List Equation, before ≠ [] → after ≠ [] →
            before ++ after = equations →
              ∃ first second, ((conjoinAll before).run settings).outcome = .ok first ∧
                ((conjoinAll after).run settings).outcome = .ok second ∧
                ((first.conjoin second).run settings).outcome = .ok joint) ∧
    (∀ (scope : List SymbolName) (first second third : Equation), first.IsTableOver scope →
      second.IsTableOver scope → third.IsTableOver scope →
        ∃ left right joint, ((first.conjoin second).run settings).outcome = .ok left ∧
          ((second.conjoin first).run settings).outcome = .ok left ∧
          ((second.conjoin third).run settings).outcome = .ok right ∧
          ((left.conjoin third).run settings).outcome = .ok joint ∧
          ((first.conjoin right).run settings).outcome = .ok joint ∧
          ((first.conjoin first).run settings).outcome = .ok first) ∧
    ((∃ left right, ((conjoinAll equations).run settings).outcome =
        .error (.variableMismatch left right)) ↔
      equations = [] ∨ ∃ first, equations.head? = some first ∧
        ∃ equation ∈ equations, equation.scope ≠ first.scope) ∧
    ∀ error, ((conjoinAll equations).run settings).outcome = .error error ↔
      (equations = [] ∧ error = .variableMismatch [] []) ∨
        ∃ first rest other, equations = first :: rest ∧
          rest.find? (fun equation => equation.scope ≠ first.scope) = some other ∧
            error = .variableMismatch first.scope other.scope := by
  refine ⟨?_, fun scope first second third => exists_conjoin_laws settings,
    exists_variableMismatch_iff, fun error => outcome_conjoinAll_eq_error_iff⟩
  intro scope hnonempty htables
  obtain ⟨joint, hmade, hjoint⟩ := exists_isJoin settings hnonempty htables
  refine ⟨joint, hmade, hjoint.table, ?_, ?_, ?_, ?_⟩
  · intro values hwidth
    rw [isForbidden_eq_ok_true_iff (hjoint.table.scope_eq ▸ hwidth), hjoint.forbids_iff _ hwidth]
    refine exists_congr fun equation => and_congr_right fun hequation => ?_
    rw [isForbidden_eq_ok_true_iff ((htables equation hequation).scope_eq ▸ hwidth)]
  · intro other hother
    exact hjoint.covers_iff htables hother
  · intro others hmembers
    have hnonempty' : others ≠ [] := by
      obtain ⟨equation, hequation⟩ := List.exists_mem_of_ne_nil equations hnonempty
      exact List.ne_nil_of_mem ((hmembers equation).mpr hequation)
    rw [outcome_conjoinAll_eq_ok_iff_isJoin hnonempty' fun equation hequation =>
      htables equation ((hmembers equation).mp hequation)]
    exact hjoint.of_same_members hmembers
  · rintro before after hbefore hafter rfl
    obtain ⟨hfirst, hsecond⟩ := List.forall_mem_append.mp htables
    obtain ⟨first, hmade', hjoin⟩ := exists_isJoin settings hbefore hfirst
    obtain ⟨second, hmade'', hjoin'⟩ := exists_isJoin settings hafter hsecond
    refine ⟨first, second, hmade', hmade'', ?_⟩
    rw [outcome_conjoin_eq_ok_iff_isJoin hjoin.table hjoin'.table]
    exact (IsJoin.append_iff hjoin hjoin').mp hjoint

/-- Over x listed twice, the two places are given the same bit. -/
def sameBits : Equation :=
  ⟨["x", "x"], #[false, true, true, false]⟩

/-- Over x listed twice, not both places are given one. -/
def notBothOne : Equation :=
  ⟨["x", "x"], #[false, false, false, true]⟩

/-- Only where both places are given zero do both equations hold, whichever comes first and
however often; and neither goes together with an equation over x listed once. -/
theorem conjunction_is_join_repeated :
    (∀ equation ∈ [sameBits, notBothOne], equation.IsTableOver ["x", "x"]) ∧
      ((conjoinAll [notBothOne, sameBits, notBothOne]).run .off).outcome =
        .ok ⟨["x", "x"], #[false, true, true, true]⟩ ∧
      ((conjoinAll [notBothOne, sameBits, ⟨["x"], #[false, true]⟩, ⟨[], #[true]⟩]).run
        .off).outcome = .error (.variableMismatch ["x", "x"] ["x"]) := by
  have htables : ∀ equation ∈ [sameBits, notBothOne], equation.IsTableOver ["x", "x"] := by
    intro equation hequation
    rcases List.mem_pair.mp hequation with rfl | rfl <;> exact ⟨rfl, rfl⟩
  have hmade : ((conjoinAll [sameBits, notBothOne]).run .off).outcome =
      .ok ⟨["x", "x"], #[false, true, true, true]⟩ := by cbv
  obtain ⟨joint, hjoint, -, -, -, hothers, -⟩ :=
    (conjunction_is_join .off [sameBits, notBothOne]).1 _ (List.cons_ne_nil _ _) htables
  obtain rfl := Except.ok.inj (hmade.symm.trans hjoint)
  refine ⟨htables, hothers _ (by simp [or_comm]), ?_⟩
  exact ((conjunction_is_join .off _).2.2.2 _).mpr (Or.inr ⟨_, _, _, rfl, rfl, rfl⟩)

end ElectiveCalculus.Equation
