/-
# Assignments by name

A table is indexed by the places of its variables, and every elimination moves the
places of those behind the eliminated one. Facts about several tables are therefore
stated for valuations, which give a bit to every name: a valuation induces an
assignment on any list of variables, and over distinct variables every assignment
is induced by one.

Putting a bit back at the place of a variable is then changing the valuation at
its name, and places do not appear any more.
-/

import ElectiveCalculus.Equation.Complete
import Mathlib

namespace ElectiveCalculus

/-- A bit for every name, whether or not a table has a variable of that name. -/
abbrev Valuation := SymbolName → Bool

/-- The valuation that an assignment to the variables of a scope stands for. Names
outside the scope are given the bit of nothing. -/
def Assignment.valuation (scope : List SymbolName) (assignment : Assignment) : Valuation :=
  fun name => ((scope.zip assignment).lookup name).getD false

/-- Whether an equation forbids the assignment that a valuation induces on its
variables. -/
def Equation.excludes (equation : Equation) (valuation : Valuation) : Bool :=
  equation.forbids (equation.scope.map valuation)

section Lookup

variable {β : Type} {scope : List SymbolName} {name : SymbolName}

/-- The first variable of a name decides, and has no value behind the last one. -/
theorem lookup_zip (scope : List SymbolName) (values : List β) (name : SymbolName) :
    (scope.zip values).lookup name = if name ∈ scope then values[scope.idxOf name]? else none := by
  induction scope generalizing values with
  | nil => rfl
  | cons first rest ih =>
      cases values with
      | nil => simp
      | cons value others =>
          rw [List.zip_cons_cons, List.lookup_cons, List.idxOf_cons]
          by_cases hfirst : name = first
          · subst hfirst
            simp
          · rw [beq_false_of_ne hfirst, beq_false_of_ne (Ne.symm hfirst), ih]
            simp [hfirst]

theorem lookup_zip_map_of_mem (value : SymbolName → β) (hname : name ∈ scope) :
    (scope.zip (scope.map value)).lookup name = some (value name) := by
  rw [lookup_zip, if_pos hname, List.getElem?_map, List.getElem?_idxOf hname, Option.map_some]

theorem lookup_zip_of_not_mem (values : List β) (hname : name ∉ scope) :
    (scope.zip values).lookup name = none := by
  rw [lookup_zip, if_neg hname]

end Lookup

variable {scope : List SymbolName}

/-- Over distinct variables an assignment is induced by the valuation it stands for. -/
theorem map_valuation (hdistinct : scope.Nodup) {assignment : Assignment}
    (hwidth : assignment.length = scope.length) :
    scope.map (assignment.valuation scope) = assignment := by
  induction scope generalizing assignment with
  | nil => exact (List.eq_nil_of_length_eq_zero hwidth).symm
  | cons name rest ih =>
      obtain ⟨hname, hrest⟩ := List.nodup_cons.mp hdistinct
      cases assignment with
      | nil => cases hwidth
      | cons bit bits =>
          have hbits := ih hrest (Nat.succ.inj hwidth)
          have hbehind : rest.map (Assignment.valuation (name :: rest) (bit :: bits)) =
              rest.map (Assignment.valuation rest bits) := by
            apply List.map_congr_left
            intro other hother
            have hne : other ≠ name := fun h => hname (h ▸ hother)
            rw [Assignment.valuation, List.zip_cons_cons, List.lookup_cons, beq_false_of_ne hne]
            rfl
          rw [List.map_cons, hbehind, hbits]
          simp [Assignment.valuation]

/-- Over distinct variables the assignments are what valuations induce. -/
theorem exists_valuation (hdistinct : scope.Nodup) {assignment : Assignment}
    (hwidth : assignment.length = scope.length) :
    ∃ valuation : Valuation, scope.map valuation = assignment :=
  ⟨assignment.valuation scope, map_valuation hdistinct hwidth⟩

/-- Over distinct variables, speaking of every assignment is speaking of every valuation. -/
theorem forall_assignment_iff (hdistinct : scope.Nodup) {property : Assignment → Prop} :
    (∀ assignment : Assignment, assignment.length = scope.length → property assignment) ↔
      ∀ valuation : Valuation, property (scope.map valuation) := by
  apply Iff.intro
  · intro hall valuation
    exact hall _ (List.length_map _)
  · intro hall assignment hwidth
    obtain ⟨valuation, rfl⟩ := exists_valuation hdistinct hwidth
    exact hall valuation

/-- Putting a bit in the place of a variable changes the valuation at its name and
nowhere else. -/
theorem insertIdx_map_eraseIdx (valuation : Valuation) (hdistinct : scope.Nodup)
    {position : Nat} (hposition : position < scope.length) (bit : Bool) :
    ((scope.eraseIdx position).map valuation).insertIdx position bit =
      scope.map (Function.update valuation scope[position] bit) := by
  have herased : (scope.eraseIdx position).map valuation =
      (scope.map (Function.update valuation scope[position] bit)).eraseIdx position := by
    rw [List.eraseIdx_map]
    apply List.map_congr_left
    intro name hname
    have hne : name ≠ scope[position] := by
      rw [← hdistinct.erase_getElem position hposition] at hname
      exact (hdistinct.mem_erase_iff.mp hname).1
    rw [Function.update_of_ne hne]
  have hbound : position < (scope.map (Function.update valuation scope[position] bit)).length := by
    simpa using hposition
  have hback := List.insertIdx_eraseIdx_getElem hbound
  rw [List.getElem_map, Function.update_self] at hback
  rw [herased, hback]

/-- Trying both bits of a name outside a scope tries every valuation: whichever bit a
valuation gives the name is one of the two. -/
theorem forall_update_iff {name : SymbolName} (hname : name ∉ scope) (valuation : Valuation)
    (property : Valuation → Prop) :
    (∀ other : Valuation, (∀ bound ∈ scope, other bound = valuation bound) →
        property (Function.update other name false) ∧ property (Function.update other name true)) ↔
      ∀ other : Valuation, (∀ bound ∈ scope, other bound = valuation bound) →
        property other := by
  apply Iff.intro
  · intro h other hagree
    have hboth := h other hagree
    rw [← Function.update_eq_self name other]
    cases other name with
    | false => exact hboth.1
    | true => exact hboth.2
  · intro h other hagree
    have hchanged (bit : Bool) :
        ∀ bound ∈ scope, Function.update other name bit bound = valuation bound := by
      intro bound hbound
      have hne : bound ≠ name := fun heq => hname (heq ▸ hbound)
      rw [Function.update_of_ne hne]
      exact hagree bound hbound
    exact ⟨h _ (hchanged false), h _ (hchanged true)⟩

/-- Asked with one value for each variable, a table answers for the valuation. -/
theorem isForbidden_map (equation : Equation) (valuation : Valuation) :
    equation.isForbidden (equation.scope.map valuation) = .ok (equation.excludes valuation) := by
  rw [Equation.isForbidden, if_pos (List.length_map _)]
  rfl

/-- A table made from verdicts answers for a valuation with the verdict on the
assignment it induces. -/
theorem excludes_ofVerdicts (scope : List SymbolName) (verdict : Assignment → Bool)
    (valuation : Valuation) :
    (Equation.ofVerdicts scope verdict).excludes valuation = verdict (scope.map valuation) :=
  Equation.forbids_ofVerdicts verdict (List.length_map _)

end ElectiveCalculus
