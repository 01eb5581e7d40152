/-
# What a rendered equation says

A rendered equation is the sum of its summands set to zero. No summand has a blank in it,
so cutting the sum at its plus signs gives back the texts of the summands, and each of them
is read back as the summand that was written.

Nothing that a table says is therefore lost. What is lost are the variables of an equation
that forbids nothing, because all of these are rendered as zero equal to zero.
-/

import ElectiveCalculus.Proofs.Constituents
import Mathlib

namespace ElectiveCalculus

namespace Text

/-! ## Joining -/

theorem join_cons (separator first : Text) {rest : List Text} (hrest : rest ≠ []) :
    join separator (first :: rest) = first ++ separator ++ join separator rest := by
  cases rest with
  | nil => contradiction
  | cons second rest => rw [join, List.intercalate_cons_cons, ← join]

theorem join_singleton (separator text : Text) : join separator [text] = text :=
  List.intercalate_singleton

/-! ## Cutting at a sign of several units -/

theorem length_lt_of_after? {opening text behind : Text} (hopening : opening ≠ [])
    (hbehind : after? opening text = some behind) : behind.length < text.length := by
  have hlength := congrArg List.length (after?_eq_some_iff.mp hbehind)
  have hpositive := List.length_pos_iff.mpr hopening
  rw [List.length_append] at hlength
  omega

/-- The parts of a text between the occurrences of a sign, which are found from the left and
do not overlap. -/
def segments (sign : Text) (hsign : sign ≠ []) : Text → List Text
  | [] => [[]]
  | unit :: rest =>
    match hfound : after? sign (unit :: rest) with
    | some behind =>
      have : behind.length < rest.length + 1 := length_lt_of_after? hsign hfound
      [] :: segments sign hsign behind
    | none => (segments sign hsign rest).modifyHead (unit :: ·)
termination_by text => text.length

variable {first : CodeUnit} {others : Text} (hsign : first :: others ≠ [])

theorem segments_sign_append (text : Text) :
    segments (first :: others) hsign (first :: others ++ text) =
      [] :: segments (first :: others) hsign text := by
  have hfound : after? (first :: others) (first :: others ++ text) = some text :=
    after?_eq_some_iff.mpr rfl
  rw [List.cons_append, segments]
  split
  case h_1 behind hbehind =>
    obtain rfl := Option.some.inj (hfound.symm.trans hbehind)
    rfl
  case h_2 hnone => cases hfound.symm.trans hnone

theorem segments_cons_of_ne {unit : CodeUnit} (hunit : unit ≠ first) (text : Text) :
    segments (first :: others) hsign (unit :: text) =
      (segments (first :: others) hsign text).modifyHead (unit :: ·) := by
  have hmissing : after? (first :: others) (unit :: text) = none := if_neg hunit.symm
  rw [segments]
  split
  case h_1 hfound => cases hmissing.symm.trans hfound
  case h_2 => rfl

/-- A text without the first unit of the sign is a segment up to the next occurrence. -/
theorem segments_append_sign {text : Text} (hclear : first ∉ text) (rest : Text) :
    segments (first :: others) hsign (text ++ (first :: others ++ rest)) =
      text :: segments (first :: others) hsign rest := by
  induction text with
  | nil => exact segments_sign_append hsign rest
  | cons unit text ih =>
      obtain ⟨hunit, htext⟩ := List.ne_and_not_mem_of_not_mem_cons hclear
      rw [List.cons_append, segments_cons_of_ne hsign hunit.symm, ih htext]
      rfl

theorem segments_of_not_mem {text : Text} (hclear : first ∉ text) :
    segments (first :: others) hsign text = [text] := by
  induction text with
  | nil => rw [segments]
  | cons unit text ih =>
      obtain ⟨hunit, htext⟩ := List.ne_and_not_mem_of_not_mem_cons hclear
      rw [segments_cons_of_ne hsign hunit.symm, ih htext]
      rfl

/-- Texts in which no sign can begin are what their join is cut into. -/
theorem segments_join {texts : List Text} (hnonempty : texts ≠ [])
    (hclear : ∀ text ∈ texts, first ∉ text) :
    segments (first :: others) hsign (join (first :: others) texts) = texts := by
  induction texts with
  | nil => contradiction
  | cons text rest ih =>
      have htext := hclear text List.mem_cons_self
      by_cases hrest : rest = []
      · subst hrest
        rw [join_singleton]
        exact segments_of_not_mem hsign htext
      · have hothers := ih hrest fun other hother => hclear other (List.mem_cons_of_mem _ hother)
        rw [join_cons _ text hrest, List.append_assoc, segments_append_sign hsign htext, hothers]

end Text

/-- What is written of an expression over letters has no blank in it. -/
theorem Expr.blank_not_mem_render {expr : Expr} (hletters : expr.HasLetterNames) :
    (0x20 : CodeUnit) ∉ expr.render := by
  intro hblank
  obtain ⟨phrase, htext, -⟩ := Grammar.exists_phrase_of_hasLetterNames expr hletters
  rw [← htext] at hblank
  exact absurd (phrase.isNotation_of_mem_text hblank) (by decide)

namespace Equation

variable {equation other : Equation} {settings : Log.Settings}

/-! ## The sum that is written -/

theorem render_eq (hformed : equation.WellFormed) :
    equation.render = Text.join " + " (equation.summands.map Expr.render) ++ " = 0" := by
  have hwidth : equation.scope.length ≤ 32 :=
    (length_le_of_letters hformed.letters hformed.distinct).trans (by decide)
  have htexts : (equation.forbiddenRows.map fun (row : Nat) =>
      renderConstituent equation.scope (.ofIndex row equation.scope.length)) =
        equation.forbiddenAssignments.map fun assignment =>
          (constituent equation.scope assignment).render := by
    rw [← map_ofIndex_forbiddenRows hformed.complete hwidth, List.map_map]
    apply List.map_congr_left
    intro row _
    exact renderConstituent_eq hformed.letters (Assignment.length_ofIndex _ _)
  rw [render, htexts, summands]
  cases equation.forbiddenAssignments with
  | nil => rfl
  | cons first rest =>
      show _ = Text.join " + " (((first :: rest).map (constituent equation.scope)).map
        Expr.render) ++ " = 0"
      rw [List.map_map]
      rfl

theorem hasLetterNames_of_mem_summands (hformed : equation.WellFormed) {expr : Expr}
    (hexpr : expr ∈ equation.summands) : expr.HasLetterNames := by
  intro name hname
  exact hformed.letters name (mem_scope_of_mem_summands hexpr name (Expr.mem_symbols.mpr hname))

/-- Every summand is read back as it was written, for the products in it are right-nested. -/
theorem parse_render_of_mem_summands (hformed : equation.WellFormed) {expr : Expr}
    (hexpr : expr ∈ equation.summands) : Expr.parse expr.render = .ok expr := by
  have hnested : expr.isRightNested = true := by
    rcases mem_summands.mp hexpr with ⟨-, rfl⟩ | ⟨assignment, -, rfl⟩
    · rfl
    · exact isRightNested_constituent _ _
  rw [Expr.parse_render (hasLetterNames_of_mem_summands hformed hexpr),
    Expr.rightNested_eq_self_iff.mpr hnested]

theorem outcome_mapM_read_summands (hformed : equation.WellFormed) :
    (((equation.summands.map Expr.render).mapM Expr.read).run settings).outcome =
      .ok equation.summands := by
  rw [Log.Logged.outcome_mapM, mapM_eq_ok_iff, List.forall₂_map_left_iff, List.forall₂_same]
  intro expr hexpr
  exact Expr.outcome_read_eq_ok_iff.mpr (parse_render_of_mem_summands hformed hexpr)

theorem segments_join_summands (hformed : equation.WellFormed) :
    Text.segments " + " (by decide) (Text.join " + " (equation.summands.map Expr.render)) =
      equation.summands.map Expr.render := by
  apply Text.segments_join
  · rw [ne_eq, List.map_eq_nil_iff]
    exact summands_ne_nil equation
  · intro text htext
    rcases List.mem_map.mp htext with ⟨expr, hexpr, rfl⟩
    exact Expr.blank_not_mem_render (hasLetterNames_of_mem_summands hformed hexpr)

/-! ## Equations told apart by their summands -/

theorem excludes_eq_of_summands_eq (hsummands : equation.summands = other.summands)
    (valuation : Valuation) : equation.excludes valuation = other.excludes valuation := by
  rw [Bool.eq_iff_iff, ← exists_summand_holds_iff, hsummands, exists_summand_holds_iff]

theorem occurrences_of_mem_summands (hformed : equation.WellFormed)
    (hproper : equation.isTautology = false) {expr : Expr} (hexpr : expr ∈ equation.summands) :
    expr.occurrences = equation.scope := by
  rcases mem_summands.mp hexpr with ⟨hnone, -⟩ | ⟨assignment, hassignment, rfl⟩
  · rw [(forbiddenAssignments_eq_nil_iff hformed).mp hnone] at hproper
    cases hproper
  · exact occurrences_constituent (mem_forbiddenAssignments.mp hassignment).1

theorem summands_of_isTautology (hformed : equation.WellFormed)
    (htautology : equation.isTautology = true) : equation.summands = [.const false] := by
  rw [summands, (forbiddenAssignments_eq_nil_iff hformed).mpr htautology]

/-- A summand names all variables in their order, and so the summands of an equation that
forbids something determine its table. -/
theorem summands_eq_iff (hformed : equation.WellFormed) (hother : other.WellFormed) :
    equation.summands = other.summands ↔
      equation = other ∨ equation.isTautology = true ∧ other.isTautology = true := by
  apply Iff.intro
  · intro hsummands
    have hexcludes := excludes_eq_of_summands_eq hsummands
    have htautology : equation.isTautology = other.isTautology := by
      rw [Bool.eq_iff_iff, isTautology_iff hformed.complete hformed.distinct,
        isTautology_iff hother.complete hother.distinct]
      exact forall_congr' fun valuation => by rw [hexcludes]
    cases hproper : equation.isTautology with
    | true => exact Or.inr ⟨rfl, htautology ▸ hproper⟩
    | false =>
        -- the variables are read off any one summand, which the other equation has too
        obtain ⟨expr, hexpr⟩ := List.exists_mem_of_ne_nil _ (summands_ne_nil equation)
        have hscope : equation.scope = other.scope := by
          rw [← occurrences_of_mem_summands hformed hproper hexpr]
          exact occurrences_of_mem_summands hother (htautology ▸ hproper) (hsummands ▸ hexpr)
        exact Or.inl (eq_of_excludes hformed.complete hother.complete hformed.distinct hscope
          hexcludes)
  · intro h
    rcases h with rfl | ⟨htautology, htautology'⟩
    · rfl
    · rw [summands_of_isTautology hformed htautology, summands_of_isTautology hother htautology']

theorem render_eq_render_iff (hformed : equation.WellFormed) (hother : other.WellFormed) :
    equation.render = other.render ↔
      equation = other ∨ equation.isTautology = true ∧ other.isTautology = true := by
  rw [← summands_eq_iff hformed hother, render_eq hformed, render_eq hother,
    List.append_cancel_right_eq]
  apply Iff.intro
  · intro hjoin
    have htexts := segments_join_summands hformed
    rw [hjoin, segments_join_summands hother] at htexts
    have hread : (((other.summands.map Expr.render).mapM Expr.read).run .off).outcome =
        .ok equation.summands := by
      rw [htexts]
      exact outcome_mapM_read_summands hformed
    rw [outcome_mapM_read_summands hother] at hread
    exact (Except.ok.inj hread).symm
  · intro hsummands
    rw [hsummands]

/-! ## Decoding -/

/-- A rendered equation says what its table says. Cut at the plus signs it is a list of
expressions that are worth the verdict together, and that set to zero one by one make the
table again. Equations that forbid something are rendered alike only if they are equal. -/
theorem rendered_equation_is_decoded (hformed : equation.WellFormed) (settings : Log.Settings) :
    (∃ (body : Text) (exprs : List Expr),
      equation.render = body ++ " = 0" ∧
        (((Text.segments " + " (by decide) body).mapM Expr.read).run settings).outcome =
          .ok exprs ∧
        (∀ values : Assignment, values.length = equation.scope.length →
          ∃ (verdict : Bool) (worths : List Int),
            equation.isForbidden values = .ok verdict ∧
              exprs.mapM (fun expr => expr.evaluate equation.scope (bitValues values)) =
                .ok worths ∧
              worths.sum = if verdict then 1 else 0) ∧
        ∀ limit : Int, equation.scope.length ≤ limit →
          ∃ tables : List Equation,
            ((exprs.mapM fun expr =>
              normalize limit expr (.const false) equation.scope).run settings).outcome =
                .ok tables ∧
              ((conjoinAll tables).run settings).outcome = .ok equation) ∧
    ∀ other : Equation, other.WellFormed →
      (equation.render = other.render ↔
        equation.equal other = true ∨
          equation.isTautology = true ∧ other.isTautology = true) := by
  refine ⟨⟨_, equation.summands, render_eq hformed, ?_, ?_, ?_⟩, ?_⟩
  · rw [segments_join_summands hformed]
    exact outcome_mapM_read_summands hformed
  · intro values hwidth
    obtain ⟨valuation, rfl⟩ := exists_valuation hformed.distinct hwidth
    refine ⟨_, _, isForbidden_map equation valuation, ?_, sum_summands equation valuation⟩
    rw [mapM_eq_ok_iff, List.forall₂_map_right_iff, List.forall₂_same]
    intro expr hexpr
    exact Expr.evaluate_bitValues (mem_scope_of_mem_summands hexpr) valuation
  · intro limit hlimit
    refine ⟨_, ?_, outcome_conjoinAll_summands hformed⟩
    rw [Log.Logged.outcome_mapM, mapM_eq_ok_iff, List.forall₂_map_right_iff, List.forall₂_same]
    intro expr hexpr
    exact outcome_normalize_eq_ok_iff.mpr ⟨⟨hlimit, hformed.letters, hformed.distinct⟩,
      ⟨mem_scope_of_mem_summands hexpr, Expr.symbols_const_subset false⟩, rfl⟩
  · intro other hother
    rw [render_eq_render_iff hformed hother, equal_iff]

/-- That `x` and `y` differ is forbidden by two constituents. They are read back, make the
table again, and no other table is written so. -/
theorem rendered_equation_is_decoded_identity :
    (⟨["x", "y"], #[false, true, true, false]⟩ : Equation).render =
        Text.ofString "(1-x)y + x(1-y) = 0" ∧
      (∃ (exprs : List Expr) (tables : List Equation),
        (((Text.segments " + " (by decide) "(1-x)y + x(1-y)").mapM Expr.read).run
          .off).outcome = .ok exprs ∧
        ((exprs.mapM fun expr => normalize 2 expr (.const false) ["x", "y"]).run
          .off).outcome = .ok tables ∧
        ((conjoinAll tables).run .off).outcome = .ok ⟨["x", "y"], #[false, true, true, false]⟩) ∧
      ∀ other : Equation, other.WellFormed → other.render = "(1-x)y + x(1-y) = 0" →
        other = ⟨["x", "y"], #[false, true, true, false]⟩ := by
  have hformed : (⟨["x", "y"], #[false, true, true, false]⟩ : Equation).WellFormed :=
    ⟨by decide, by decide, rfl⟩
  have htext : (⟨["x", "y"], #[false, true, true, false]⟩ : Equation).render =
      Text.ofString "(1-x)y + x(1-y) = 0" := by cbv
  obtain ⟨⟨body, exprs, hbody, hread, -, hback⟩, hsame⟩ := rendered_equation_is_decoded hformed .off
  obtain ⟨tables, htables, hconjoined⟩ := hback 2 (le_refl _)
  have hcut : Text.ofString "(1-x)y + x(1-y) = 0" =
      Text.ofString "(1-x)y + x(1-y)" ++ Text.ofString " = 0" := by cbv
  rw [htext, hcut] at hbody
  rw [← List.append_cancel_right hbody] at hread
  refine ⟨htext, ⟨exprs, tables, hread, htables, hconjoined⟩, ?_⟩
  intro other hother hrender
  rcases (hsame other hother).mp (htext.trans hrender.symm) with hequal | ⟨htautology, -⟩
  · exact (equal_iff.mp hequal).symm
  · exact absurd htautology (by simp [isTautology])

end Equation

end ElectiveCalculus
