/-
# Expressions side by side

The product of several expressions is written as these side by side, and has their symbols in
the order in which they are met first. A text does not show where one expression ends and the
next begins. What is read is therefore the right-nested product of the factors of all of them,
and this is the product that was written when each of them is a factor by itself.
-/

import ElectiveCalculus.Proofs.Repetitions
import ElectiveCalculus.Proofs.RoundTrip
import Mathlib

namespace ElectiveCalculus.Expr

variable {first : Expr} {rest parts : List Expr}

theorem eraseDups_symbols (expr : Expr) : expr.symbols.eraseDups = expr.symbols :=
  eraseDups_of_nodup (nodup_eraseDups expr.occurrences)

/-- A product has the symbols of its factors, each where it is met first. -/
theorem symbols_ofFactors (factors : List Expr) :
    (ofFactors factors).symbols = (factors.flatMap symbols).eraseDups := by
  rw [symbols, occurrences_ofFactors, eraseDups_flatMap, eraseDups_flatMap symbols]
  simp only [eraseDups_symbols]
  rfl

theorem hasLetterNames_ofFactors (hletters : ∀ part ∈ parts, part.HasLetterNames) :
    (ofFactors parts).HasLetterNames := by
  intro name hname
  rw [occurrences_ofFactors] at hname
  obtain ⟨part, hpart, hmem⟩ := List.mem_flatMap.mp hname
  exact hletters part hpart name hmem

theorem nestedFactors_ofFactors (hparts : parts ≠ []) :
    (ofFactors parts).nestedFactors = parts.flatMap nestedFactors := by
  induction parts with
  | nil => contradiction
  | cons first rest ih =>
      by_cases hrest : rest = []
      · subst hrest
        rw [ofFactors, List.flatMap_singleton]
      · rw [ofFactors_cons first hrest, nestedFactors, ih hrest, List.flatMap_cons]

/-- Expressions side by side are read as the product of the factors of all of them. -/
theorem parse_flatten_render (hletters : ∀ part ∈ first :: rest, part.HasLetterNames) :
    Expr.parse ((first :: rest).map render).flatten =
      .ok (ofFactors ((first :: rest).flatMap nestedFactors)) := by
  rw [← render_ofFactors, parse_render (hasLetterNames_ofFactors hletters), rightNested,
    nestedFactors_ofFactors (List.cons_ne_nil first rest)]

/-- Right-nested expressions of which none is a product are the factors of their product. -/
theorem flatMap_nestedFactors
    (hparts : ∀ part ∈ parts, part.isProduct = false ∧ part.isRightNested = true) :
    parts.flatMap nestedFactors = parts := by
  have hself : ∀ part ∈ parts, part.nestedFactors = [part] := by
    intro part hpart
    obtain ⟨hproduct, hnested⟩ := hparts part hpart
    rw [nestedFactors_of_not_product hproduct, rightNested_eq_self_iff.mpr hnested]
  calc parts.flatMap nestedFactors
      = parts.flatMap fun part => [part] := List.flatMap_congr hself
    _ = parts := List.flatMap_singleton' parts

/-- The product of expressions over letters is written as these side by side and has their
symbols, without the later occurrences of each. When none of them is a product and no product
in them is nested to the left, what is read of their texts side by side is the product. -/
theorem product_is_read_from_its_parts
    (hletters : ∀ part ∈ first :: rest, part.HasLetterNames) (settings : Log.Settings) :
    (ofFactors (first :: rest)).render = ((first :: rest).map render).flatten ∧
      (ofFactors (first :: rest)).symbols = ((first :: rest).map symbols).flatten.eraseDups ∧
      ((∀ part ∈ first :: rest, part.isProduct = false ∧ part.isRightNested = true) →
        ∃ expr, ((Expr.read ((first :: rest).map render).flatten).run settings).outcome =
            .ok expr ∧
          (ofFactors (first :: rest)).equal expr = true) := by
  refine ⟨render_ofFactors first rest, symbols_ofFactors _, ?_⟩
  intro hparts
  refine ⟨_, outcome_read_eq_ok_iff.mpr (parse_flatten_render hletters), ?_⟩
  rw [flatMap_nestedFactors hparts]
  exact equal_iff.mpr rfl

/-- In the product of the complement of `yx`, of `x` and of the unit the symbol `y` comes first,
and the complement is read back with its product inside. -/
theorem product_is_read_from_its_parts_complement :
    (ofFactors [.not (.product (.sym "y") (.sym "x")), .sym "x", .const true]).render =
        Text.ofString "(1-yx)x1" ∧
      (ofFactors [.not (.product (.sym "y") (.sym "x")), .sym "x", .const true]).symbols =
        ["y", "x"] ∧
      ((Expr.read "(1-yx)x1").run .off).outcome =
        .ok (ofFactors [.not (.product (.sym "y") (.sym "x")), .sym "x", .const true]) := by
  have hletters : ∀ part ∈ [Expr.not (.product (.sym "y") (.sym "x")), .sym "x", .const true],
      part.HasLetterNames := by
    unfold HasLetterNames
    decide
  have hparts : ∀ part ∈ [Expr.not (.product (.sym "y") (.sym "x")), .sym "x", .const true],
      part.isProduct = false ∧ part.isRightNested = true := by
    decide
  obtain ⟨hrender, hsymbols, hread⟩ := product_is_read_from_its_parts hletters .off
  have htext : ([Expr.not (.product (.sym "y") (.sym "x")), .sym "x", .const true].map
      render).flatten = Text.ofString "(1-yx)x1" := by cbv
  rw [htext] at hrender hread
  refine ⟨hrender, hsymbols.trans (by cbv), ?_⟩
  obtain ⟨expr, houtcome, hequal⟩ := hread hparts
  rw [houtcome, equal_iff.mp hequal]

end ElectiveCalculus.Expr
