/-
# The trace of an inference

When everything is logged, an inference leaves a line for each of its steps that was completed:
for every side that was read, every table that was made, every conjunction and every elimination,
and at the end for the inference itself. A step that fails writes nothing and is the last one. So
the lines of an inference that fails tell how far it got, and the equations in them are those
that the steps came to.

The steps are operations that announce what they come to. Their lines are put together along the
premises, along the tables that are conjoined and along the symbols that are eliminated.
-/

import ElectiveCalculus.Proofs.Announcement
import ElectiveCalculus.Proofs.InferenceFaults
import Mathlib

namespace ElectiveCalculus

open Log

/-! ## The lines -/

namespace Log.Entry

/-- The line about a text that was read. -/
def parsed (input : Text) : Entry := ⟨.trace, .parser, "Parsed '" ++ input ++ "'"⟩

/-- The line about an equation that was reduced to its table over variables. -/
def normalized (scope : List SymbolName) (equation : Equation) : Entry :=
  ⟨.debug, .normalizer, "Normalized over " ++ Text.bracketed scope ++ ": " ++ equation.render⟩

/-- The line about two equations and their conjunction. -/
def conjoined (first second result : Equation) : Entry :=
  ⟨.trace, .conjunction, "Conjoined" ++ ": " ++
    (first.render ++ " & " ++ second.render ++ " => " ++ result.render)⟩

/-- The line about what is left when a symbol is eliminated. -/
def eliminated (symbol : SymbolName) (result : Equation) : Entry :=
  ⟨.debug, .elimination, "Eliminated '" ++ symbol ++ "'" ++ ": " ++ result.render⟩

/-- The line about a conclusion. -/
def inferred (count : Nat) (symbols : List SymbolName) (text : Text) : Entry :=
  ⟨.info, .syllogism, "Inferred from " ++ Text.ofNat count ++ " premises, eliminating " ++
    Text.bracketed symbols ++ ": " ++ text⟩

end Log.Entry

/-! ## Steps and their lines -/

open Log.Logged

theorem Expr.announces_read (input : Text) :
    (Expr.read input).Announces fun _ => .parsed input :=
  announces_write _ _ _ fun _ _ => _

theorem Expr.run_read_of_ok {input : Text} {expr : Expr} (hparse : Expr.parse input = .ok expr) :
    (Expr.read input).run .everything = ⟨[.parsed input], .ok expr⟩ :=
  (Expr.announces_read input).run_eq (Expr.outcome_read_eq_ok_iff.mpr hparse)

theorem Expr.run_read_of_error {input : Text} {cause : ParseError}
    (hparse : Expr.parse input = .error cause) :
    (Expr.read input).run .everything = ⟨[], .error (.parse cause)⟩ := by
  have houtcome : ((Expr.read input).run .everything).outcome = .error (.parse cause) := by
    rw [Expr.outcome_read, hparse]
    rfl
  exact (Expr.announces_read input).run_eq houtcome

namespace Equation

theorem announces_normalize (limit : Int) (lhs rhs : Expr) (scope : List SymbolName) :
    (normalize limit lhs rhs scope).Announces (.normalized scope) :=
  (announces_write _ _ _ fun _ _ => _).after _

theorem announces_conjoin (first second : Equation) :
    (first.conjoin second).Announces (.conjoined first second) := by
  rw [conjoin]
  cases sameVariables first.scope second.scope with
  | false => rfl
  | true => exact announces_write (.ok (first.union second)) _ _ fun _ _ => _

theorem announces_eliminate (equation : Equation) (symbol : SymbolName) :
    (equation.eliminate symbol).Announces (.eliminated symbol) := by
  rw [eliminate]
  cases equation.scope.findIdx? (· == symbol) with
  | none => rfl
  | some position => exact announces_write (.ok (equation.project position)) _ _ fun _ _ => _

end Equation

/-! ## One premise -/

namespace Premise

variable {limit : Int} {scope : List SymbolName} {premise : Premise}

/-- The lines about a premise and its table. -/
def lines (scope : List SymbolName) (premise : Premise) (equation : Equation) : List Entry :=
  [.parsed premise.lhs, .parsed premise.rhs, .normalized scope equation]

/-- The lines about a premise that is refused, and the error that says what for: only a side
that was read has a line. -/
inductive Interrupted (limit : Int) (scope : List SymbolName) (premise : Premise) :
    List Entry → Error → Prop
  /-- The left side cannot be read. -/
  | lhs {cause : ParseError} (hlhs : Expr.parse premise.lhs = .error cause) :
      Interrupted limit scope premise [] (.parse cause)
  /-- The left side was read, and the right side cannot be. -/
  | rhs {lhs : Expr} {cause : ParseError} (hlhs : Expr.parse premise.lhs = .ok lhs)
      (hrhs : Expr.parse premise.rhs = .error cause) :
      Interrupted limit scope premise [.parsed premise.lhs] (.parse cause)
  /-- Both sides were read, and no table can be made. -/
  | normalization {lhs rhs : Expr} {error : Error} (hlhs : Expr.parse premise.lhs = .ok lhs)
      (hrhs : Expr.parse premise.rhs = .ok rhs)
      (hfails : ((Equation.normalize limit lhs rhs scope).run .everything).outcome =
        .error error) :
      Interrupted limit scope premise [.parsed premise.lhs, .parsed premise.rhs] error

theorem run_read_of_parse {lhs rhs : Expr} (hlhs : Expr.parse premise.lhs = .ok lhs)
    (hrhs : Expr.parse premise.rhs = .ok rhs) :
    (Sides.read premise).run .everything =
      ⟨[.parsed premise.lhs, .parsed premise.rhs], .ok ⟨lhs, rhs⟩⟩ := by
  exact run_bind_ok _ (Expr.run_read_of_ok hlhs)
    (run_bind_pure (Sides.mk lhs) (Expr.run_read_of_ok hrhs))

theorem run_normalize {equation : Equation}
    (hnormal : ((Premise.normalize limit scope premise).run .everything).outcome =
      .ok equation) :
    (Premise.normalize limit scope premise).run .everything =
      ⟨premise.lines scope equation, .ok equation⟩ := by
  obtain ⟨sides, hread, htable⟩ := (outcome_bind_eq_ok_iff .everything).mp hnormal
  obtain ⟨hlhs, hrhs⟩ := Sides.outcome_read_eq_ok_iff.mp hread
  exact run_bind_ok _ (run_read_of_parse hlhs hrhs)
    ((Equation.announces_normalize limit sides.lhs sides.rhs scope).run_eq htable)

theorem Interrupted.run_normalize {written : List Entry} {error : Error}
    (h : Interrupted limit scope premise written error) :
    (Premise.normalize limit scope premise).run .everything = ⟨written, .error error⟩ := by
  cases h with
  | lhs hlhs => exact run_bind_error _ (run_bind_error _ (Expr.run_read_of_error hlhs))
  | rhs hlhs hrhs =>
      exact run_bind_error _ (run_bind_ok _ (Expr.run_read_of_ok hlhs)
        (run_bind_error _ (Expr.run_read_of_error hrhs)))
  | normalization hlhs hrhs hfails =>
      exact run_bind_ok _ (run_read_of_parse hlhs hrhs)
        ((Equation.announces_normalize limit _ _ scope).run_eq hfails)

theorem exists_interrupted {error : Error}
    (hfails : ((Premise.normalize limit scope premise).run .everything).outcome = .error error) :
    ∃ written, Interrupted limit scope premise written error := by
  rw [Premise.normalize, outcome_bind, bind_eq_error_iff, Sides.outcome_read_eq_error_iff] at hfails
  rcases hfails with (⟨cause, hlhs, rfl⟩ | ⟨⟨lhs, hlhs⟩, cause, hrhs, rfl⟩) |
    ⟨⟨lhs, rhs⟩, hsides, htable⟩
  · exact ⟨_, .lhs hlhs⟩
  · exact ⟨_, .rhs hlhs hrhs⟩
  · obtain ⟨hlhs, hrhs⟩ := Sides.outcome_read_eq_ok_iff.mp hsides
    exact ⟨_, .normalization hlhs hrhs htable⟩

end Premise

/-! ## All steps -/

namespace Inference

variable {limit : Int} {scope eliminated : List SymbolName} {premises : List Premise}
  {tables : List Equation} {log : List Entry}

/-- Premises with the tables that they were reduced to. -/
def Reduced (limit : Int) (scope : List SymbolName) : List Premise → List Equation → Prop :=
  List.Forall₂ fun premise table =>
    ((Premise.normalize limit scope premise).run .everything).outcome = .ok table

/-- The lines about premises and their tables. -/
def premiseLines (scope : List SymbolName) (premises : List Premise) (tables : List Equation) :
    List Entry :=
  (List.zipWith (Premise.lines scope) premises tables).flatten

/-- The lines about a table and those it was conjoined with, one after another. -/
def Conjoins : Equation → List Equation → List Entry → Equation → Prop :=
  Passes Equation.conjoin Entry.conjoined

/-- The lines about an equation and the symbols eliminated from it, one after another. -/
def Eliminates : Equation → List SymbolName → List Entry → Equation → Prop :=
  Passes Equation.eliminate fun _ => Entry.eliminated

/-- What an inference leaves when everything is logged: the lines about the steps that were
completed, and what it came to. -/
inductive Traced (limit : Int) (scope eliminated : List SymbolName) :
    List Premise → List Entry → Except Error Inference → Prop
  /-- Every step was completed, and the last line is about the inference itself. -/
  | complete {premises : List Premise} {first combined conclusion : Equation}
      {rest : List Equation} {conjunctions eliminations : List Entry}
      (hpremises : Reduced limit scope premises (first :: rest))
      (hconjunctions : Conjoins first rest conjunctions combined)
      (heliminations : Eliminates combined eliminated eliminations conclusion) :
      Traced limit scope eliminated premises
        (premiseLines scope premises (first :: rest) ++ conjunctions ++ eliminations ++
          [.inferred premises.length eliminated conclusion.render])
        (.ok ⟨first :: rest, combined, conclusion, conclusion.render⟩)
  /-- There is no premise and nothing to conjoin. -/
  | noPremise : Traced limit scope eliminated [] [] (.error (.variableMismatch [] []))
  /-- A premise was refused, and those before it were reduced to their tables. -/
  | premise {before : List Premise} {tables : List Equation} {premise : Premise}
      {written : List Entry} {error : Error} (after : List Premise)
      (hbefore : Reduced limit scope before tables)
      (hpremise : premise.Interrupted limit scope written error) :
      Traced limit scope eliminated (before ++ premise :: after)
        (premiseLines scope before tables ++ written) (.error error)
  /-- A symbol was not found, when the symbols before it had been eliminated. -/
  | elimination {premises : List Premise} {first combined reached : Equation}
      {rest : List Equation} {conjunctions eliminations : List Entry}
      {before after : List SymbolName} {symbol : SymbolName}
      (hpremises : Reduced limit scope premises (first :: rest))
      (hconjunctions : Conjoins first rest conjunctions combined)
      (hsymbols : eliminated = before ++ symbol :: after)
      (heliminations : Eliminates combined before eliminations reached)
      (hunknown : symbol ∉ reached.scope) :
      Traced limit scope eliminated premises
        (premiseLines scope premises (first :: rest) ++ conjunctions ++ eliminations)
        (.error (.unknownVariable symbol reached.scope))

/-! ### Each trace is left -/

theorem Reduced.run_append {before : List Premise} (hbefore : Reduced limit scope before tables)
    {after : List Premise} {written : List Entry} {outcome : Except Error (List Equation)}
    (hafter : (after.mapM (Premise.normalize limit scope)).run .everything = ⟨written, outcome⟩) :
    ((before ++ after).mapM (Premise.normalize limit scope)).run .everything =
      ⟨premiseLines scope before tables ++ written, outcome.map (tables ++ ·)⟩ :=
  run_mapM_append (hbefore.imp fun _ _ hpremise => Premise.run_normalize hpremise) hafter

theorem Reduced.run (h : Reduced limit scope premises tables) :
    (premises.mapM (Premise.normalize limit scope)).run .everything =
      ⟨premiseLines scope premises tables, .ok tables⟩ := by
  have hnone : (([] : List Premise).mapM (Premise.normalize limit scope)).run .everything =
      ⟨[], .ok []⟩ := rfl
  have hrun := h.run_append hnone
  simpa only [List.append_nil, Except.map] using hrun

/-- What comes behind the conjunction finds the combined equation. -/
theorem run_draw_of_combined {first combined : Equation} {rest : List Equation}
    {conjunctions written : List Entry} {outcome : Except Error Inference}
    (hpremises : Reduced limit scope premises (first :: rest))
    (hconjunctions : Conjoins first rest conjunctions combined)
    (hbehind : (combined.eliminateAll eliminated >>= fun conclusion =>
      write .info .syllogism (fun () => "Inferred from " ++ Text.ofNat premises.length ++
        " premises, eliminating " ++ Text.bracketed eliminated ++ ": " ++ conclusion.render) >>=
          fun _ => pure (Inference.mk (first :: rest) combined conclusion conclusion.render)).run
      .everything = ⟨written, outcome⟩) :
    (draw limit premises scope eliminated).run .everything =
      ⟨premiseLines scope premises (first :: rest) ++ conjunctions ++ written, outcome⟩ := by
  have hcombined : (Equation.conjoinAll (first :: rest)).run .everything =
      ⟨conjunctions, .ok combined⟩ := hconjunctions.run Equation.announces_conjoin
  rw [List.append_assoc]
  exact run_bind_ok _ hpremises.run (run_bind_ok _ hcombined hbehind)

theorem Traced.run {outcome : Except Error Inference}
    (h : Traced limit scope eliminated premises log outcome) :
    (draw limit premises scope eliminated).run .everything = ⟨log, outcome⟩ := by
  have hannounces : ∀ (equation : Equation) symbol,
      (equation.eliminate symbol).Announces (.eliminated symbol) := Equation.announces_eliminate
  cases h with
  | complete hpremises hconjunctions heliminations =>
      rw [List.append_assoc]
      refine run_draw_of_combined hpremises hconjunctions
        (run_bind_ok _ (heliminations.run hannounces) ?_)
      exact (announces_write (.ok _) _ _ fun _ _ => _).run_eq rfl
  | noPremise => rfl
  | @premise _ _ premise written error after hbefore hpremise =>
      have hfails : ((premise :: after).mapM (Premise.normalize limit scope)).run .everything =
          ⟨written, .error error⟩ := by
        rw [List.mapM_cons]
        exact run_bind_error _ hpremise.run_normalize
      exact run_bind_error _ (hbefore.run_append hfails)
  | @elimination _ _ _ reached _ _ _ before after symbol hpremises hconjunctions hsymbols
      heliminations hunknown =>
      subst hsymbols
      have hfails : ((symbol :: after).foldlM Equation.eliminate reached).run .everything =
          ⟨[], .error (.unknownVariable symbol reached.scope)⟩ := by
        rw [List.foldlM_cons]
        exact run_bind_error _ ((hannounces reached symbol).run_eq
          (Equation.outcome_eliminate_eq_error_iff.mpr ⟨hunknown, rfl⟩))
      have heliminated := heliminations.run_append hannounces hfails
      rw [List.append_nil] at heliminated
      exact run_draw_of_combined hpremises hconjunctions (run_bind_error _ heliminated)

/-! ### Some trace is left -/

theorem exists_traced (limit : Int) (premises : List Premise) (scope eliminated : List SymbolName) :
    ∃ log outcome, Traced limit scope eliminated premises log outcome := by
  cases hsteps : premises.mapM fun premise =>
      ((Premise.normalize limit scope premise).run .everything).outcome with
  | error error =>
      obtain ⟨before, premise, after, rfl, hbefore, hfails⟩ := mapM_eq_error_iff.mp hsteps
      obtain ⟨tables, htables⟩ := exists_mapM_eq_ok_iff.mpr hbefore
      obtain ⟨written, hpremise⟩ := Premise.exists_interrupted hfails
      exact ⟨_, _, .premise after (mapM_eq_ok_iff.mp htables) hpremise⟩
  | ok tables =>
      have hpremises : Reduced limit scope premises tables := mapM_eq_ok_iff.mp hsteps
      cases tables with
      | nil =>
          obtain rfl := List.forall₂_nil_right_iff.mp hpremises
          exact ⟨_, _, .noPremise⟩
      | cons first rest =>
          have hsome : premises ≠ [] := by
            rintro rfl
            cases hpremises
          obtain ⟨combined, hcombined, -⟩ := exists_combined hsome hpremises
          obtain ⟨conjunctions, hconjunctions⟩ := exists_passes hcombined
          cases heliminated : ((combined.eliminateAll eliminated).run .everything).outcome with
          | ok conclusion =>
              obtain ⟨eliminations, heliminations⟩ := exists_passes heliminated
              exact ⟨_, _, .complete hpremises hconjunctions heliminations⟩
          | error error =>
              rw [Equation.eliminateAll, outcome_foldlM] at heliminated
              obtain ⟨before, symbol, after, reached, hsymbols, hbefore, hsymbol⟩ :=
                foldlM_eq_error_iff.mp heliminated
              rw [← outcome_foldlM] at hbefore
              obtain ⟨eliminations, heliminations⟩ := exists_passes hbefore
              exact ⟨_, _, .elimination hpremises hconjunctions hsymbols heliminations
                (Equation.outcome_eliminate_eq_error_iff.mp hsymbol).1⟩

theorem run_eq_iff_traced {outcome : Except Error Inference} :
    (draw limit premises scope eliminated).run .everything = ⟨log, outcome⟩ ↔
      Traced limit scope eliminated premises log outcome := by
  apply Iff.intro
  · intro hrun
    obtain ⟨written, reached, htraced⟩ := exists_traced limit premises scope eliminated
    obtain ⟨rfl, rfl⟩ := Run.mk.inj (htraced.run.symm.trans hrun)
    exact htraced
  · exact Traced.run

/-! ### What the lines are about -/

/-- What the lines of a completed inference are about, in their order: two texts and a table for
each premise, a conjunction for each premise behind the first one, the eliminated symbols, and
the inference itself. -/
def reported (count symbols : Nat) : List Component :=
  (List.replicate count [Component.parser, Component.parser, Component.normalizer]).flatten ++
    List.replicate (count - 1) Component.conjunction ++
      List.replicate symbols Component.elimination ++ [Component.syllogism]

theorem Reduced.map_component (h : Reduced limit scope premises tables) :
    (premiseLines scope premises tables).map Entry.component =
      (List.replicate premises.length [.parser, .parser, .normalizer]).flatten := by
  induction h with
  | nil => rfl
  | cons _ _ ih =>
      rw [List.length_cons, List.replicate_succ, List.flatten_cons, ← ih, premiseLines,
        List.zipWith_cons_cons, List.flatten_cons, List.map_append]
      rfl

theorem Traced.map_component {inference : Inference}
    (h : Traced limit scope eliminated premises log (.ok inference)) :
    log.map Entry.component = reported premises.length eliminated.length := by
  cases h with
  | @complete _ first _ _ rest _ _ hpremises hconjunctions heliminations =>
      have hlength : premises.length = rest.length + 1 := hpremises.length_eq
      rw [List.map_append, List.map_append, List.map_append, hpremises.map_component,
        hconjunctions.map_component fun _ _ _ => rfl, heliminations.map_component fun _ _ _ => rfl,
        hlength]
      rfl

theorem Traced.syllogism_not_mem {error : Error}
    (h : Traced limit scope eliminated premises log (.error error)) :
    Component.syllogism ∉ log.map Entry.component := by
  cases h with
  | noPremise => exact List.not_mem_nil
  | premise after hbefore hpremise =>
      rw [List.map_append, hbefore.map_component]
      cases hpremise <;> simp [Entry.parsed, List.mem_flatten, List.mem_replicate]
  | elimination hpremises hconjunctions hsymbols heliminations hunknown =>
      rw [List.map_append, List.map_append, hpremises.map_component,
        hconjunctions.map_component fun _ _ _ => rfl, heliminations.map_component fun _ _ _ => rfl]
      simp [List.mem_flatten, List.mem_replicate]

/-- When everything is logged, what an inference leaves are the lines about the steps that were
completed, in their order, with the equations that these steps came to. When it succeeds there
are three lines for each premise, one for each premise behind the first one, one for each
eliminated symbol and the one about the inference; when it fails there is none about it. -/
theorem trace_records_progress (limit : Int) (premises : List Premise)
    (scope eliminated : List SymbolName) :
    (∀ log outcome, (draw limit premises scope eliminated).run .everything = ⟨log, outcome⟩ ↔
      Traced limit scope eliminated premises log outcome) ∧
    (∀ inference,
      ((draw limit premises scope eliminated).run .everything).outcome = .ok inference →
        ((draw limit premises scope eliminated).run .everything).log.map Entry.component =
          reported premises.length eliminated.length) ∧
    ∀ error, ((draw limit premises scope eliminated).run .everything).outcome = .error error →
      Component.syllogism ∉
        ((draw limit premises scope eliminated).run .everything).log.map Entry.component := by
  obtain ⟨log, outcome, htraced⟩ := exists_traced limit premises scope eliminated
  refine ⟨fun _ _ => run_eq_iff_traced, fun inference hdrawn => ?_, fun error hfails => ?_⟩
  · rw [htraced.run] at hdrawn ⊢
    subst hdrawn
    exact htraced.map_component
  · rw [htraced.run] at hfails ⊢
    subst hfails
    exact htraced.syllogism_not_mem

/-- The second premise is refused for its right side: behind the lines about the first premise
only its left side has one. Without that premise the inference is completed, with four lines
and one for the symbol that is eliminated. -/
theorem trace_records_progress_second_premise :
    (draw 16 [⟨"x", "xy"⟩, ⟨"y", "y)"⟩] ["x", "y"] ["y"]).run .everything =
        ⟨[.parsed "x", .parsed "xy",
            .normalized ["x", "y"] ⟨["x", "y"], #[false, false, true, false]⟩, .parsed "y"],
          .error (.parse ⟨.unexpectedUnit CodeUnit.closeParen, "y)", 1⟩)⟩ ∧
      Component.syllogism ∉ ((draw 16 [⟨"x", "xy"⟩, ⟨"y", "y)"⟩] ["x", "y"] ["y"]).run
        .everything).log.map Entry.component ∧
      ((draw 16 [⟨"x", "xy"⟩] ["x", "y"] ["y"]).run .everything).log.map Entry.component =
        [.parser, .parser, .normalizer, .elimination, .syllogism] := by
  have htable : ((Premise.normalize 16 ["x", "y"] ⟨"x", "xy"⟩).run .everything).outcome =
      .ok ⟨["x", "y"], #[false, false, true, false]⟩ := by cbv
  have hlhs : Expr.parse "y" = .ok (.sym "y") := by cbv
  have hrhs : Expr.parse "y)" =
      .error ⟨.unexpectedUnit CodeUnit.closeParen, "y)", 1⟩ := by cbv
  have hdrawn : ((draw 16 [⟨"x", "xy"⟩] ["x", "y"] ["y"]).run .everything).outcome =
      .ok ⟨[⟨["x", "y"], #[false, false, true, false]⟩], ⟨["x", "y"], #[false, false, true, false]⟩,
        ⟨["x"], #[false, false]⟩, "0 = 0"⟩ := by cbv
  obtain ⟨htraced, -, hfailed⟩ := trace_records_progress 16 [⟨"x", "xy"⟩, ⟨"y", "y)"⟩]
    ["x", "y"] ["y"]
  have hrun := (htraced _ _).mpr
    (.premise [] (List.Forall₂.cons htable List.Forall₂.nil) (.rhs hlhs hrhs))
  exact ⟨hrun, hfailed _ (by rw [hrun]),
    (trace_records_progress 16 [⟨"x", "xy"⟩] ["x", "y"] ["y"]).2.1 _ hdrawn⟩

end Inference

end ElectiveCalculus
