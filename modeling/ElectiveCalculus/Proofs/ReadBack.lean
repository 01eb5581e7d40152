/-
# Rendered equations read back

The notation has products and complements, and no sum. A rendered equation of one summand is
an equation of the notation, and what it is read as makes the table again. With more summands
the left side is no expression: the first summand is read to its end, and the blank in front of
the first plus sign is refused.
-/

import ElectiveCalculus.Proofs.PaddedEquation
import ElectiveCalculus.Proofs.RenderedEquation
import Mathlib

namespace ElectiveCalculus

namespace Grammar

/-! ## Derived texts with a stray unit behind them -/

theorem Term.text_head (term : Term) : term.head.text = term.text := by
  cases term <;> rfl

theorem Term.width_head (term : Term) : term.head.width = term.text.length := by
  rw [← Head.length_text, term.text_head]

/-- A unit that no derived text has begins no term. -/
theorem splitTerm_of_not_isNotation {unit : CodeUnit} (hunit : isNotation unit = false)
    (rest : Text) : splitTerm (unit :: rest) = .error (.unexpectedUnit unit) := by
  rw [isNotation, Bool.or_eq_false_iff] at hunit
  obtain ⟨hletter, hsign⟩ := hunit
  simp only [List.contains_eq_mem, List.mem_cons, List.not_mem_nil, or_false, not_or,
    decide_eq_false_iff_not] at hsign
  obtain ⟨hzero, hone, -, hopen, -⟩ := hsign
  rw [splitTerm, if_neg hopen, hletter, if_neg Bool.false_ne_true, if_neg hzero, if_neg hone]

/-- A derived text is read to its end, and a unit behind it that no derived text has is refused
where it stands. -/
theorem Phrase.parseRange_append_stray (input : Text) (start : Nat) (phrase : Phrase)
    {unit : CodeUnit} (hunit : isNotation unit = false) (rest : Text) :
    parseRange input start (phrase.text ++ unit :: rest) =
      .error ⟨.unexpectedUnit unit, input, start + phrase.text.length⟩ := by
  have hstray (place : Nat) : parseRange input place (unit :: rest) =
      .error ⟨.unexpectedUnit unit, input, place⟩ :=
    parseRange_of_splitTerm_error (splitTerm_of_not_isNotation hunit rest)
  match phrase with
  | .single term =>
    rw [Phrase.text, parseRange_of_splitTerm (term.splitTerm_text _), term.parseHead_head,
      Except.bind, if_neg (List.cons_ne_nil _ _), term.width_head, hstray]
    rfl
  | .juxtaposed term following =>
    have hfollowing : following.text ++ unit :: rest ≠ [] := by simp
    rw [Phrase.text, List.append_assoc, parseRange_of_splitTerm (term.splitTerm_text _),
      term.parseHead_head, Except.bind, if_neg hfollowing, term.width_head,
      following.parseRange_append_stray input _ hunit rest, List.length_append, Nat.add_assoc]
    rfl

end Grammar

theorem Expr.ne_nil_of_parse {text : Text} {expr : Expr} (hread : Expr.parse text = .ok expr) :
    text ≠ [] := by
  obtain ⟨phrase, rfl, -⟩ := Expr.parse_eq_ok_iff.mp hread
  exact phrase.text_ne_nil

theorem Expr.parse_append_stray {text : Text} {expr : Expr} (hread : Expr.parse text = .ok expr)
    {unit : CodeUnit} (hunit : Grammar.isNotation unit = false) (rest : Text) :
    Expr.parse (text ++ unit :: rest) =
      .error ⟨.unexpectedUnit unit, text ++ unit :: rest, text.length⟩ := by
  obtain ⟨phrase, rfl, -⟩ := Expr.parse_eq_ok_iff.mp hread
  rw [Expr.parse, phrase.parseRange_append_stray _ _ hunit, Nat.zero_add]

namespace Text

/-! ## Joined texts -/

variable {separator : Text} {texts : List Text} {unit : CodeUnit}

theorem mem_join (hunit : unit ∈ join separator texts) :
    unit ∈ separator ∨ ∃ text ∈ texts, unit ∈ text := by
  induction texts with
  | nil => cases hunit
  | cons first rest ih =>
      by_cases hrest : rest = []
      · subst hrest
        rw [join_singleton] at hunit
        exact Or.inr ⟨first, List.mem_cons_self, hunit⟩
      · rw [join_cons separator first hrest, List.mem_append, List.mem_append] at hunit
        rcases hunit with (hfirst | hseparator) | hjoin
        · exact Or.inr ⟨first, List.mem_cons_self, hfirst⟩
        · exact Or.inl hseparator
        · refine (ih hjoin).imp_right fun h => ?_
          obtain ⟨text, htext, hmem⟩ := h
          exact ⟨text, List.mem_cons_of_mem _ htext, hmem⟩

theorem join_ne_nil (hnonempty : texts ≠ []) (htexts : ∀ text ∈ texts, text ≠ []) :
    join separator texts ≠ [] := by
  cases texts with
  | nil => contradiction
  | cons first rest =>
      have hfirst := htexts first List.mem_cons_self
      by_cases hrest : rest = []
      · rwa [hrest, join_singleton]
      · rw [join_cons separator first hrest]
        simp [hfirst]

/-- What joined texts begin with is what the first of them begins with. -/
theorem exists_mem_of_mem_head?_join (htexts : ∀ text ∈ texts, text ≠ [])
    (hunit : unit ∈ (join separator texts).head?) : ∃ text ∈ texts, unit ∈ text := by
  cases texts with
  | nil => cases hunit
  | cons first rest =>
      refine ⟨first, List.mem_cons_self, ?_⟩
      by_cases hrest : rest = []
      · rw [hrest, join_singleton] at hunit
        exact List.mem_of_mem_head? hunit
      · have hfirst := htexts first List.mem_cons_self
        rw [join_cons separator first hrest, List.append_assoc,
          List.head?_append_of_ne_nil _ hfirst] at hunit
        exact List.mem_of_mem_head? hunit

/-- What joined texts end with is what the last of them ends with. -/
theorem exists_mem_of_mem_getLast?_join (htexts : ∀ text ∈ texts, text ≠ [])
    (hunit : unit ∈ (join separator texts).getLast?) : ∃ text ∈ texts, unit ∈ text := by
  induction texts with
  | nil => cases hunit
  | cons first rest ih =>
      have hbehind : ∀ text ∈ rest, text ≠ [] := fun text htext =>
        htexts text (List.mem_cons_of_mem _ htext)
      by_cases hrest : rest = []
      · rw [hrest, join_singleton] at hunit
        exact ⟨first, List.mem_cons_self, List.mem_of_mem_getLast? hunit⟩
      · rw [join_cons separator first hrest,
          List.getLast?_append_of_ne_nil _ (join_ne_nil hrest hbehind)] at hunit
        obtain ⟨text, htext, hmem⟩ := ih hbehind hunit
        exact ⟨text, List.mem_cons_of_mem _ htext, hmem⟩

theorem isBlank_space : IsBlank " " := by
  have hspace : Text.ofString " " = [0x20] := by decide
  rw [hspace]
  exact List.forall_mem_singleton.mpr (by decide)

/-- Of blanks behind joined texts that have no blank themselves nothing is left. -/
theorem pads_join_append {after : Text} (hafter : IsBlank after)
    (htexts : ∀ text ∈ texts, text ≠ [])
    (hclear : ∀ text ∈ texts, ∀ unit ∈ text, unit.isBlank = false) :
    Pads (join separator texts ++ after) (join separator texts) where
  around := ⟨[], after, List.forall_mem_nil _, hafter, rfl⟩
  first unit hunit := by
    obtain ⟨text, htext, hmem⟩ := exists_mem_of_mem_head?_join htexts hunit
    exact hclear text htext unit hmem
  last unit hunit := by
    obtain ⟨text, htext, hmem⟩ := exists_mem_of_mem_getLast?_join htexts hunit
    exact hclear text htext unit hmem

end Text

namespace Equation

variable {equation : Equation} {settings : Log.Settings}

/-! ## One summand -/

theorem exists_summands_eq_singleton (hfew : equation.forbiddenAssignments.length ≤ 1) :
    ∃ expr, equation.summands = [expr] := by
  rw [summands]
  cases hforbidden : equation.forbiddenAssignments with
  | nil => exact ⟨.const false, rfl⟩
  | cons first rest =>
      rw [hforbidden, List.length_cons] at hfew
      obtain rfl : rest = [] := List.eq_nil_of_length_eq_zero (by omega)
      exact ⟨constituent equation.scope first, rfl⟩

/-- An only summand that is set to zero makes the table. -/
theorem ofSides_of_summands_eq_singleton (hformed : equation.WellFormed) {expr : Expr}
    (hsummands : equation.summands = [expr]) :
    ofSides equation.scope expr (.const false) = equation := by
  have hconjoined : ((conjoinAll (equation.summands.map fun expr =>
      ofSides equation.scope expr (.const false))).run .off).outcome = .ok equation :=
    outcome_conjoinAll_summands hformed
  rw [hsummands] at hconjoined
  exact Except.ok.inj hconjoined

theorem isPadded_render_of_summands_eq_singleton (hformed : equation.WellFormed) {expr : Expr}
    (hsummands : equation.summands = [expr]) :
    Sides.IsPadded equation.render ⟨expr, .const false⟩ := by
  have hread : Expr.parse expr.render = .ok expr :=
    parse_render_of_mem_summands hformed (hsummands ▸ List.mem_singleton_self expr)
  have hzero : Expr.parse "0" = .ok (.const false) := by cbv
  have hblank : Text.IsBlank " " := Text.isBlank_space
  have hnone : Text.IsBlank [] := List.forall_mem_nil _
  refine ⟨[], expr.render, " ", " ", "0", [], ⟨hnone, hblank, hblank, hnone⟩,
    ⟨hread, hzero⟩, ?_⟩
  rw [render_eq hformed, hsummands, List.map_singleton, Text.join_singleton, List.nil_append,
    List.append_assoc]
  rfl

/-! ## Several summands -/

theorem map_render_summands (hformed : equation.WellFormed)
    (hforbidden : equation.forbiddenAssignments ≠ []) :
    equation.summands.map Expr.render =
      equation.forbiddenAssignments.map (renderConstituent equation.scope) := by
  have hsummands : equation.summands =
      equation.forbiddenAssignments.map (constituent equation.scope) := by
    rw [summands]
    cases hcases : equation.forbiddenAssignments with
    | nil => exact absurd hcases hforbidden
    | cons first rest => rfl
  rw [hsummands, List.map_map]
  apply List.map_congr_left
  intro assignment hassignment
  exact (renderConstituent_eq hformed.letters (mem_forbiddenAssignments.mp hassignment).1).symm

theorem exists_parse_of_mem_summands (hformed : equation.WellFormed) {text : Text}
    (htext : text ∈ equation.summands.map Expr.render) : ∃ expr, Expr.parse text = .ok expr := by
  obtain ⟨expr, hexpr, rfl⟩ := List.mem_map.mp htext
  exact ⟨expr, parse_render_of_mem_summands hformed hexpr⟩

/-- The only equals sign of a rendered equation stands between its sum and the zero. -/
theorem isCut_render (hformed : equation.WellFormed) :
    Sides.IsCut equation.render (Text.join " + " (equation.summands.map Expr.render) ++ " ")
      " 0" where
  parts := by
    rw [render_eq hformed, List.append_assoc]
    rfl
  left := by
    rw [List.mem_append, not_or]
    apply And.intro
    · intro hsign
      rcases Text.mem_join hsign with hseparator | ⟨text, htext, hmem⟩
      · exact absurd hseparator (by decide)
      · obtain ⟨expr, hread⟩ := exists_parse_of_mem_summands hformed htext
        exact Expr.sign_not_mem_of_parse hread hmem
    · decide
  right := by decide

/-- No blank is left around the sum, because no summand is empty or has a blank in it. -/
theorem pads_sum (hformed : equation.WellFormed) :
    Text.Pads (Text.join " + " (equation.summands.map Expr.render) ++ " ")
      (Text.join " + " (equation.summands.map Expr.render)) := by
  apply Text.pads_join_append
  · exact Text.isBlank_space
  · intro text htext
    obtain ⟨expr, hread⟩ := exists_parse_of_mem_summands hformed htext
    exact Expr.ne_nil_of_parse hread
  · intro text htext unit hunit
    obtain ⟨expr, hread⟩ := exists_parse_of_mem_summands hformed htext
    exact CodeUnit.isBlank_of_isNotation (Expr.isNotation_of_parse hread hunit)

/-- A sum of several texts is read to the end of the first one, where a blank is met. -/
theorem parse_sum {text : Text} {expr : Expr} (hread : Expr.parse text = .ok expr)
    {others : List Text} (hothers : others ≠ []) :
    Expr.parse (Text.join " + " (text :: others)) =
      .error ⟨.unexpectedUnit 0x20, Text.join " + " (text :: others), text.length⟩ := by
  have hblank : Grammar.isNotation 0x20 = false := by decide
  have hsum : Text.join " + " (text :: others) =
      text ++ 0x20 :: ([0x2B, 0x20] ++ Text.join " + " others) := by
    rw [Text.join_cons _ _ hothers, List.append_assoc]
    rfl
  rw [hsum]
  exact Expr.parse_append_stray hread hblank _

theorem outcome_readEquation_render_of_several (hformed : equation.WellFormed)
    {first : Assignment} {others : List Assignment} (hothers : others ≠ [])
    (hforbidden : equation.forbiddenAssignments = first :: others) :
    ((Sides.readEquation equation.render).run settings).outcome =
      .error (.parse ⟨.unexpectedUnit 0x20,
        Text.join " + " ((first :: others).map (renderConstituent equation.scope)),
        (renderConstituent equation.scope first).length⟩) := by
  have hwritten : equation.summands.map Expr.render =
      (first :: others).map (renderConstituent equation.scope) := by
    rw [map_render_summands hformed (hforbidden ▸ List.cons_ne_nil first others), hforbidden]
  have hfirst : first ∈ equation.forbiddenAssignments := hforbidden ▸ List.mem_cons_self
  have hread : Expr.parse (renderConstituent equation.scope first) =
      .ok (constituent equation.scope first) := by
    rw [renderConstituent_eq hformed.letters (mem_forbiddenAssignments.mp hfirst).1]
    exact parse_render_of_mem_summands hformed (mem_summands.mpr (Or.inr ⟨first, hfirst, rfl⟩))
  have htexts : others.map (renderConstituent equation.scope) ≠ [] := by
    rwa [ne_eq, List.map_eq_nil_iff]
  have hrefused := parse_sum hread htexts
  have hcut := isCut_render hformed
  have hpads := pads_sum hformed
  rw [hwritten, List.map_cons] at hcut hpads
  exact Sides.outcome_readEquation_eq_error_iff.mpr ⟨_, rfl, .left hcut hpads hrefused⟩

/-! ## Reading back -/

/-- A rendered equation that forbids one assignment or none is read back, and normalizing what
is read makes the equation again. One that forbids several is refused at the blank behind its
first constituent. -/
theorem rendered_equation_is_read_back (hformed : equation.WellFormed)
    (settings : Log.Settings) :
    (equation.forbiddenAssignments.length ≤ 1 →
      ∃ sides : Sides Expr,
        ((Sides.readEquation equation.render).run settings).outcome = .ok sides ∧
        ∀ limit : Int, equation.scope.length ≤ limit →
          ((normalize limit sides.lhs sides.rhs equation.scope).run settings).outcome =
            .ok equation) ∧
    (1 < equation.forbiddenAssignments.length →
      ∃ (first : Assignment) (others : List Assignment) (sum : Text),
        equation.forbiddenAssignments = first :: others ∧
        sum = Text.join " + " ((first :: others).map (renderConstituent equation.scope)) ∧
        equation.render = sum ++ " = 0" ∧
        ((Sides.readEquation equation.render).run settings).outcome =
          .error (.parse ⟨.unexpectedUnit 0x20, sum,
            (renderConstituent equation.scope first).length⟩) ∧
        (ParseFault.unexpectedUnit 0x20).description = "Unexpected character ' '") := by
  apply And.intro
  · intro hfew
    obtain ⟨expr, hsummands⟩ := exists_summands_eq_singleton hfew
    refine ⟨⟨expr, .const false⟩, Sides.outcome_readEquation_eq_ok_iff.mpr
      (isPadded_render_of_summands_eq_singleton hformed hsummands), ?_⟩
    intro limit hlimit
    have hexpr : expr ∈ equation.summands := hsummands ▸ List.mem_singleton_self expr
    exact outcome_normalize_eq_ok_iff.mpr ⟨⟨hlimit, hformed.letters, hformed.distinct⟩,
      ⟨mem_scope_of_mem_summands hexpr, Expr.symbols_const_subset false⟩,
      (ofSides_of_summands_eq_singleton hformed hsummands).symm⟩
  · intro hseveral
    obtain ⟨first, others, hforbidden⟩ := List.exists_cons_of_length_pos (Nat.zero_lt_of_lt hseveral)
    have hothers : others ≠ [] := by
      rintro rfl
      rw [hforbidden] at hseveral
      exact lt_irrefl 1 hseveral
    refine ⟨first, others, _, hforbidden, rfl, ?_,
      outcome_readEquation_render_of_several hformed hothers hforbidden, by decide⟩
    rw [render_eq hformed, map_render_summands hformed (hforbidden ▸ List.cons_ne_nil _ _),
      hforbidden]

/-- That all `x` are `y` is one constituent and is read back. That `x` and `y` are the same is
two, and the blank behind the six units of the first one is refused. -/
theorem rendered_equation_is_read_back_identity :
    (∃ sides : Sides Expr,
      ((Sides.readEquation "x(1-y) = 0").run .off).outcome = .ok sides ∧
        ((normalize 2 sides.lhs sides.rhs ["x", "y"]).run .off).outcome =
          .ok ⟨["x", "y"], #[false, false, true, false]⟩) ∧
      ((Sides.readEquation "(1-x)y + x(1-y) = 0").run .off).outcome =
        .error (.parse ⟨.unexpectedUnit 0x20, "(1-x)y + x(1-y)", 6⟩) := by
  have hletters : ∀ name ∈ (["x", "y"] : List SymbolName), SymbolName.isLetter name = true := by
    decide
  have hdistinct : (["x", "y"] : List SymbolName).Nodup := by decide
  have hformed (forbidden : Array Bool) (hsize : forbidden.size = 4) :
      (⟨["x", "y"], forbidden⟩ : Equation).WellFormed := ⟨hletters, hdistinct, hsize⟩
  have hone : (⟨["x", "y"], #[false, false, true, false]⟩ : Equation).render =
      Text.ofString "x(1-y) = 0" := by cbv
  have htwo : (⟨["x", "y"], #[false, true, true, false]⟩ : Equation).render =
      Text.ofString "(1-x)y + x(1-y) = 0" := by cbv
  have hpair : (⟨["x", "y"], #[false, true, true, false]⟩ : Equation).forbiddenAssignments =
      [[false, true], [true, false]] := by cbv
  obtain ⟨hread, -⟩ :=
    rendered_equation_is_read_back (hformed #[false, false, true, false] rfl) .off
  obtain ⟨-, hrefused⟩ :=
    rendered_equation_is_read_back (hformed #[false, true, true, false] rfl) .off
  rw [hone] at hread
  rw [htwo] at hrefused
  obtain ⟨sides, hsides, hback⟩ := hread (by decide)
  obtain ⟨first, others, sum, hforbidden, rfl, -, herror, -⟩ := hrefused (by decide)
  obtain ⟨rfl, rfl⟩ := List.cons_eq_cons.mp (hforbidden.symm.trans hpair)
  have hsum : Text.join " + " ([[false, true], [true, false]].map
      (renderConstituent ["x", "y"])) = Text.ofString "(1-x)y + x(1-y)" := by cbv
  have hplace : (renderConstituent ["x", "y"] [false, true]).length = 6 := by cbv
  rw [hsum, hplace] at herror
  exact ⟨⟨sides, hsides, hback 2 (le_refl _)⟩, herror⟩

end Equation

end ElectiveCalculus
