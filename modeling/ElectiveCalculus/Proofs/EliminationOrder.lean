/-
# Elimination in any order

Eliminating several symbols quantifies over all of their bits, and a quantifier over
several bits does not have an order: whichever symbol goes first, the same rows of the
first table decide about each row of the last one. The tables in between differ, in their
variables and in every row number, and none of that is left in the result.

A symbol can be eliminated once and only if it is a variable. The first entry of a list
that is unknown when its turn comes ends the elimination, and is reported with the
variables that are left by then.
-/

import ElectiveCalculus.Proofs.Extensionality
import ElectiveCalculus.Proofs.Reachability
import Mathlib

namespace ElectiveCalculus.Equation

/-- `symbol` is the first entry of a list that is unknown when its turn comes: it is no
variable at all, or an entry before it has eliminated it. The entries `before` it are
distinct variables. -/
structure FirstUnknown (scope symbols before : List SymbolName) (symbol : SymbolName) : Prop where
  entry : ∃ after, symbols = before ++ symbol :: after
  distinct : before.Nodup
  known : ∀ name ∈ before, name ∈ scope
  unknown : symbol ∉ scope ∨ symbol ∈ before

variable {settings : Log.Settings} {equation : Equation} {symbols : List SymbolName}

/-! ## Which lists can be eliminated -/

theorem outcome_eliminateAll_cons (symbol : SymbolName) (rest : List SymbolName) :
    ((equation.eliminateAll (symbol :: rest)).run settings).outcome =
      ((equation.eliminate symbol).run settings).outcome.bind fun next =>
        ((next.eliminateAll rest).run settings).outcome := by
  rw [eliminateAll, List.foldlM_cons, Log.Logged.outcome_bind]
  rfl

/-- Once a variable is gone, it is known no more and every other variable still is. -/
theorem nodup_cons_and_mem_scope_iff {scope : List SymbolName} (hdistinct : scope.Nodup)
    (symbol : SymbolName) (rest : List SymbolName) :
    ((symbol :: rest).Nodup ∧ ∀ other ∈ symbol :: rest, other ∈ scope) ↔
      symbol ∈ scope ∧ rest.Nodup ∧ ∀ other ∈ rest, other ∈ scope.erase symbol := by
  simp only [List.nodup_cons, List.forall_mem_cons, hdistinct.mem_erase_iff]
  apply Iff.intro
  · intro h
    rcases h with ⟨⟨hfresh, hnodup⟩, hsymbol, hothers⟩
    exact ⟨hsymbol, hnodup, fun other hother =>
      ⟨fun heq => hfresh (heq ▸ hother), hothers other hother⟩⟩
  · intro h
    rcases h with ⟨hsymbol, hnodup, hothers⟩
    exact ⟨⟨fun hagain => (hothers symbol hagain).1 rfl, hnodup⟩, hsymbol,
      fun other hother => (hothers other hother).2⟩

/-- A list can be eliminated exactly when its entries are distinct variables. -/
theorem exists_outcome_eliminateAll_iff (settings : Log.Settings)
    (hdistinct : equation.scope.Nodup) :
    (∃ result, ((equation.eliminateAll symbols).run settings).outcome = .ok result) ↔
      symbols.Nodup ∧ ∀ symbol ∈ symbols, symbol ∈ equation.scope := by
  induction symbols generalizing equation with
  | nil => simpa using ⟨equation, rfl⟩
  | cons symbol rest ih =>
      have hscope := scope_project_idxOf equation symbol
      have hdistinct' : (equation.project (equation.scope.idxOf symbol)).scope.Nodup := by
        rw [hscope]
        exact hdistinct.erase symbol
      rw [nodup_cons_and_mem_scope_iff hdistinct, ← hscope, ← ih hdistinct']
      simp only [outcome_eliminateAll_cons, bind_eq_ok_iff, outcome_eliminate_eq_ok_iff]
      apply Iff.intro
      · intro h
        rcases h with ⟨result, next, ⟨hsymbol, rfl⟩, hresult⟩
        exact ⟨hsymbol, result, hresult⟩
      · intro h
        rcases h with ⟨hsymbol, result, hresult⟩
        exact ⟨result, _, ⟨hsymbol, rfl⟩, hresult⟩

theorem outcome_eliminateAll_eq_error_iff (hcomplete : equation.IsComplete)
    (hdistinct : equation.scope.Nodup) {error : Error} :
    ((equation.eliminateAll symbols).run settings).outcome = .error error ↔
      ∃ before symbol, FirstUnknown equation.scope symbols before symbol ∧
        error = .unknownVariable symbol
          (equation.scope.filter fun name => name ∉ before) := by
  have hgone (before : List SymbolName) (symbol : SymbolName) :
      symbol ∉ equation.scope.filter (fun name => name ∉ before) ↔
        symbol ∉ equation.scope ∨ symbol ∈ before := by
    rw [List.mem_filter, not_and_or, decide_eq_true_eq, not_not]
  rw [eliminateAll, Log.Logged.outcome_foldlM, foldlM_eq_error_iff]
  apply Iff.intro
  · intro h
    rcases h with ⟨before, symbol, after, reached, rfl, hbefore, hfails⟩
    rw [← Log.Logged.outcome_foldlM] at hbefore
    have hentries := (exists_outcome_eliminateAll_iff settings hdistinct).mp ⟨reached, hbefore⟩
    have hleft := (eliminateAll_spec hcomplete hdistinct hbefore).1
    obtain ⟨hunknown, rfl⟩ := outcome_eliminate_eq_error_iff.mp hfails
    rw [hleft] at hunknown ⊢
    exact ⟨before, symbol, ⟨⟨after, rfl⟩, hentries.1, hentries.2, (hgone _ _).mp hunknown⟩, rfl⟩
  · intro h
    rcases h with ⟨before, symbol, ⟨⟨after, rfl⟩, hnodup, hknown, hunknown⟩, rfl⟩
    obtain ⟨reached, hbefore⟩ :=
      (exists_outcome_eliminateAll_iff settings hdistinct).mpr ⟨hnodup, hknown⟩
    have hleft := (eliminateAll_spec hcomplete hdistinct hbefore).1
    rw [eliminateAll, Log.Logged.outcome_foldlM] at hbefore
    refine ⟨before, symbol, after, reached, rfl, hbefore, ?_⟩
    rw [outcome_eliminate_eq_error_iff, hleft]
    exact ⟨(hgone _ _).mpr hunknown, rfl⟩

/-- Elimination fails, always for an unknown variable, exactly when some entry of the list
is no variable or repeats an entry before it. -/
theorem exists_unknownVariable_iff (hcomplete : equation.IsComplete)
    (hdistinct : equation.scope.Nodup) :
    (∃ symbol left, ((equation.eliminateAll symbols).run settings).outcome =
        .error (.unknownVariable symbol left)) ↔
      ∃ before symbol after, symbols = before ++ symbol :: after ∧
        (symbol ∉ equation.scope ∨ symbol ∈ before) := by
  apply Iff.intro
  · intro h
    rcases h with ⟨_, _, hfails⟩
    obtain ⟨before, symbol, ⟨⟨after, hentry⟩, -, -, hunknown⟩, -⟩ :=
      (outcome_eliminateAll_eq_error_iff hcomplete hdistinct).mp hfails
    exact ⟨before, symbol, after, hentry, hunknown⟩
  · intro h
    rcases h with ⟨before, symbol, after, rfl, hunknown⟩
    have hspoilt : ¬ ∃ result,
        ((equation.eliminateAll (before ++ symbol :: after)).run settings).outcome = .ok result := by
      rw [exists_outcome_eliminateAll_iff settings hdistinct]
      intro hentries
      have hsymbol : symbol ∈ before ++ symbol :: after := by simp
      rcases hunknown with houtside | hagain
      · exact houtside (hentries.2 symbol hsymbol)
      · exact List.disjoint_of_nodup_append hentries.1 hagain List.mem_cons_self
    cases hended : ((equation.eliminateAll (before ++ symbol :: after)).run settings).outcome with
    | ok result => exact absurd ⟨result, hended⟩ hspoilt
    | error error =>
        obtain ⟨_, first, -, rfl⟩ :=
          (outcome_eliminateAll_eq_error_iff hcomplete hdistinct).mp hended
        exact ⟨first, _, rfl⟩

/-! ## What is left -/

section Result

variable {result : Equation}

/-- What `eliminateAll_spec` says of valuations, said of assignments. -/
theorem isForbidden_eliminateAll_iff (hcomplete : equation.IsComplete)
    (hdistinct : equation.scope.Nodup)
    (heliminated : ((equation.eliminateAll symbols).run settings).outcome = .ok result)
    {rest : Assignment} (hwidth : rest.length = result.scope.length) :
    result.isForbidden rest = .ok true ↔
      ∀ assignment : Assignment, assignment.length = equation.scope.length →
        assignment.Extends equation.scope rest result.scope →
          equation.isForbidden assignment = .ok true := by
  obtain ⟨hleft, -, hexcludes⟩ := eliminateAll_spec hcomplete hdistinct heliminated
  have hdistinct' : result.scope.Nodup := hleft ▸ hdistinct.filter _
  have hnarrow : ∀ name ∈ result.scope, name ∈ equation.scope := by
    intro name hname
    rw [hleft] at hname
    exact (List.mem_filter.mp hname).1
  obtain ⟨valuation, rfl⟩ := exists_valuation hdistinct' hwidth
  rw [isForbidden_map, Except.ok.injEq, hexcludes valuation,
    forall_extends_iff hdistinct hnarrow valuation fun assignment =>
      equation.isForbidden assignment = .ok true]
  simp only [isForbidden_map, Except.ok.injEq]

/-- Only which symbols are eliminated matters, and their order does not. -/
theorem outcome_eliminateAll_of_perm {order : List SymbolName} (hcomplete : equation.IsComplete)
    (hdistinct : equation.scope.Nodup) (hperm : order.Perm symbols)
    (heliminated : ((equation.eliminateAll symbols).run settings).outcome = .ok result) :
    ((equation.eliminateAll order).run settings).outcome = .ok result := by
  obtain ⟨hnodup, hknown⟩ :=
    (exists_outcome_eliminateAll_iff settings hdistinct).mp ⟨result, heliminated⟩
  have hknown' : ∀ symbol ∈ order, symbol ∈ equation.scope := fun symbol hsymbol =>
    hknown symbol (hperm.mem_iff.mp hsymbol)
  obtain ⟨result', heliminated'⟩ :=
    (exists_outcome_eliminateAll_iff settings hdistinct).mpr
      ⟨hperm.nodup_iff.mpr hnodup, hknown'⟩
  obtain ⟨hleft, hfull, hexcludes⟩ := eliminateAll_spec hcomplete hdistinct heliminated
  obtain ⟨hleft', hfull', hexcludes'⟩ := eliminateAll_spec hcomplete hdistinct heliminated'
  have hscope : result'.scope = result.scope := by
    rw [hleft', hleft]
    simp only [hperm.mem_iff]
  have hdistinct' : result'.scope.Nodup := hleft' ▸ hdistinct.filter _
  have hsame : result' = result := by
    apply eq_of_excludes hfull' hfull hdistinct' hscope
    intro valuation
    rw [Bool.eq_iff_iff, hexcludes' valuation, hexcludes valuation, hscope]
  rw [heliminated', hsame]

end Result

/-- Distinct variables can be eliminated in any order, which makes one and the same table
over the other variables: it forbids what is forbidden whatever bits the eliminated
variables are given. A list with an unknown or repeated entry is refused at the first one. -/
theorem elimination_in_any_order (hformed : equation.WellFormed) (settings : Log.Settings)
    (symbols : List SymbolName) :
    (symbols.Nodup → (∀ symbol ∈ symbols, symbol ∈ equation.scope) →
      ∃ result, ((equation.eliminateAll symbols).run settings).outcome = .ok result ∧
        result.scope = equation.scope.filter (fun name => name ∉ symbols) ∧
        result.IsComplete ∧
        (∀ rest : Assignment, rest.length = result.scope.length →
          (result.isForbidden rest = .ok true ↔
            ∀ assignment : Assignment, assignment.length = equation.scope.length →
              assignment.Extends equation.scope rest result.scope →
                equation.isForbidden assignment = .ok true)) ∧
        ∀ order : List SymbolName, order.Perm symbols →
          ((equation.eliminateAll order).run settings).outcome = .ok result) ∧
    ((∃ symbol left, ((equation.eliminateAll symbols).run settings).outcome =
        .error (.unknownVariable symbol left)) ↔
      ∃ before symbol after, symbols = before ++ symbol :: after ∧
        (symbol ∉ equation.scope ∨ symbol ∈ before)) ∧
    ∀ error, ((equation.eliminateAll symbols).run settings).outcome = .error error ↔
      ∃ before symbol, FirstUnknown equation.scope symbols before symbol ∧
        error = .unknownVariable symbol
          (equation.scope.filter fun name => name ∉ before) := by
  have hcomplete := hformed.complete
  have hdistinct := hformed.distinct
  refine ⟨?_, exists_unknownVariable_iff hcomplete hdistinct, fun error =>
    outcome_eliminateAll_eq_error_iff hcomplete hdistinct⟩
  intro hnodup hknown
  obtain ⟨result, heliminated⟩ :=
    (exists_outcome_eliminateAll_iff settings hdistinct).mpr ⟨hnodup, hknown⟩
  obtain ⟨hleft, hfull, -⟩ := eliminateAll_spec hcomplete hdistinct heliminated
  refine ⟨result, heliminated, hleft, hfull, ?_, ?_⟩
  · intro rest hwidth
    exact isForbidden_eliminateAll_iff hcomplete hdistinct heliminated hwidth
  · intro order hperm
    exact outcome_eliminateAll_of_perm hcomplete hdistinct hperm heliminated

/-- Over x, y and z, everything with y is forbidden and half of the rest. -/
def forbiddenWithY : Equation :=
  ⟨["x", "y", "z"], #[true, false, true, true, false, true, true, true]⟩

/-- What is left for y alone is that y is forbidden, also when x goes before z; and y cannot
be eliminated twice. -/
theorem elimination_in_any_order_with_y :
    forbiddenWithY.WellFormed ∧
      ((forbiddenWithY.eliminateAll ["x", "z"]).run .off).outcome =
        .ok ⟨["y"], #[false, true]⟩ ∧
      ((forbiddenWithY.eliminateAll ["y", "x", "y", "x"]).run .off).outcome =
        .error (.unknownVariable "y" ["z"]) := by
  have hformed : forbiddenWithY.WellFormed := ⟨by decide, by decide, rfl⟩
  obtain ⟨result, heliminated, -, -, -, horder⟩ :=
    (elimination_in_any_order hformed .off ["z", "x"]).1 (by decide) (by decide)
  have hreversed : ((forbiddenWithY.eliminateAll ["z", "x"]).run .off).outcome =
      .ok ⟨["y"], #[false, true]⟩ := by cbv
  obtain rfl := Except.ok.inj (hreversed.symm.trans heliminated)
  have hagain : FirstUnknown forbiddenWithY.scope ["y", "x", "y", "x"] ["y", "x"] "y" :=
    ⟨⟨["x"], rfl⟩, by decide, by decide, by decide⟩
  exact ⟨hformed, horder ["x", "z"] (by decide),
    ((elimination_in_any_order hformed .off ["y", "x", "y", "x"]).2.2 _).mpr
      ⟨_, _, hagain, by decide⟩⟩

end ElectiveCalculus.Equation
