/-
# The symbols that evaluation asks for

The symbols of an expression can be found in three ways. They are the distinct occurrences,
they are what a replacement notes that visits the nodes without changing them, and where
the names are letters they are the letters of the written expression. All three come to the
same names in the same order.

Evaluation asks for exactly these symbols and in this order. It fails when one of them is
unbound, for the first that is, whatever the other values are; and where all of them are
bound, nothing but their values has a part in the result.
-/

import ElectiveCalculus.Expr.Replacement
import ElectiveCalculus.Proofs.Evaluation
import ElectiveCalculus.Proofs.RoundTrip
import Mathlib

namespace ElectiveCalculus

/-- Some entries of a list are all those with a property, in the order in which they first
appear in the list. -/
structure AppearInOrder {α : Type} [BEq α] (entries : List α) (property : α → Bool)
    (firsts : List α) : Prop where
  mem_iff : ∀ entry, entry ∈ firsts ↔ entry ∈ entries ∧ property entry = true
  ordered : firsts.Pairwise fun first second => entries.idxOf first < entries.idxOf second

theorem appearInOrder_eraseDups {α : Type} [BEq α] [LawfulBEq α] (entries : List α)
    (property : α → Bool) :
    AppearInOrder entries property (entries.filter property).eraseDups where
  mem_iff entry := by rw [List.mem_eraseDups, List.mem_filter]
  ordered := by
    apply (pairwise_idxOf_eraseDups _).imp_of_mem
    intro first second hfirst hsecond hbefore
    have hproperty {entry : α} (hentry : entry ∈ (entries.filter property).eraseDups) :
        property entry = true := (List.mem_filter.mp (List.mem_eraseDups.mp hentry)).2
    exact idxOf_lt_of_filter (hproperty hfirst) (hproperty hsecond) hbefore

/-- Notes every symbol when it is met for the first time, and leaves every node as it is. -/
def noteSymbols : Replacement (StateM (List SymbolName)) where
  sym := some fun name => do
    modify fun noted => if name ∈ noted then noted else noted ++ [name]
    return .sym name
  const := none
  not := none
  product := none

namespace Expr

variable {expr : Expr}

/-! ## The symbols in their order -/

/-- The names noted are always the distinct ones of those met so far. -/
theorem run_noteSymbols (expr : Expr) (met : List SymbolName) :
    (expr.replaceNodesM noteSymbols).run met.eraseDups =
      (expr, (met ++ expr.occurrences).eraseDups) := by
  induction expr generalizing met with
  | sym name =>
      have hnoted : (if name ∈ met.eraseDups then met.eraseDups else met.eraseDups ++ [name]) =
          (met ++ [name]).eraseDups := by
        by_cases hname : name ∈ met
        · rw [if_pos (List.mem_eraseDups.mpr hname), eraseDups_concat_of_mem hname]
        · rw [if_neg (mt List.mem_eraseDups.mp hname), eraseDups_concat_of_not_mem hname]
      rw [occurrences, ← hnoted]
      rfl
  | const value =>
      rw [occurrences, List.append_nil]
      rfl
  | not arg ih =>
      rw [run_replaceNodesM_not rfl, ih, occurrences]
  | product left right ihLeft ihRight =>
      rw [run_replaceNodesM_product rfl, ihLeft]
      dsimp only
      rw [ihRight, List.append_assoc, occurrences]

theorem noteSymbols_eq_symbols (expr : Expr) :
    (expr.replaceNodesM noteSymbols).run [] = (expr, expr.symbols) :=
  run_noteSymbols expr []

/-- The letters of a written expression are its symbols, as often as they occur: reading it
back finds them all, and changes the nesting only. -/
theorem map_filter_render (hletters : expr.HasLetterNames) :
    (expr.render.filter CodeUnit.isLetter).map (fun unit => [unit]) = expr.occurrences := by
  rw [← occurrences_of_parse (parse_render hletters), occurrences_rightNested]

theorem exists_letters (hletters : expr.HasLetterNames) :
    ∃ letters : Text, expr.symbols = letters.map (fun unit => [unit]) ∧
      AppearInOrder expr.render CodeUnit.isLetter letters := by
  refine ⟨(expr.render.filter CodeUnit.isLetter).eraseDups, ?_, appearInOrder_eraseDups _ _⟩
  rw [symbols, ← map_filter_render hletters]
  exact eraseDups_map_of_injective List.singleton_injective _

/-! ## The values that are asked for -/

section Values

variable {R : Type} [OfNat R 0] [OfNat R 1] [Sub R] [Mul R]
variable {scope otherScope : List SymbolName} {values otherValues : List R}

/-- Two ways of binding the variables that give every symbol of an expression the same value
give the expression the same value. -/
theorem exists_evaluate_of_bound
    (hbound : ∀ name ∈ expr.symbols, ∃ value,
      IsBoundTo scope values name value ∧ IsBoundTo otherScope otherValues name value) :
    ∃ result, expr.evaluate scope values = .ok result ∧
      expr.evaluate otherScope otherValues = .ok result := by
  have hagree : expr.evaluate scope values = expr.evaluate otherScope otherValues := by
    apply valueIn_congr
    intro name hname
    obtain ⟨value, hfirst, hsecond⟩ := hbound name (mem_symbols.mpr hname)
    exact (worth_eq_ok_iff.mpr hfirst).trans (worth_eq_ok_iff.mpr hsecond).symm
  obtain ⟨result, hresult⟩ := exists_evaluate_eq_ok_iff.mpr fun name hname =>
    (hbound name hname).imp fun _ => And.left
  exact ⟨result, hresult, hagree ▸ hresult⟩

/-- Whatever the names are, and be there as many values as variables or not, evaluation fails
exactly where some symbol is unbound, and reports the first one. Otherwise the values of the
symbols determine the result. The symbols are what a visit to the nodes notes, none of them
twice, and they appear in this order in what is written of an expression over letters. -/
theorem evaluation_asks_for_the_symbols (expr : Expr) (scope : List SymbolName)
    (values : List R) :
    ((∃ error, expr.evaluate scope values = .error error) ↔
        ∃ name ∈ expr.symbols, IsUnbound scope values.length name) ∧
      (∀ error, expr.evaluate scope values = .error error →
        expr.symbols.find? (fun name => IsUnbound scope values.length name) = some error.symbol ∧
          error.scope = scope) ∧
      (∀ (otherScope : List SymbolName) (otherValues : List R),
        (∀ name ∈ expr.symbols, ∃ value,
          IsBoundTo scope values name value ∧ IsBoundTo otherScope otherValues name value) →
        ∃ result, expr.evaluate scope values = .ok result ∧
          expr.evaluate otherScope otherValues = .ok result) ∧
      (expr.replaceNodesM noteSymbols).run [] = (expr, expr.symbols) ∧
      expr.symbols.Nodup ∧
      (expr.HasLetterNames → ∃ letters : Text,
        expr.symbols = letters.map (fun unit => [unit]) ∧
          AppearInOrder expr.render CodeUnit.isLetter letters) := by
  refine ⟨exists_evaluate_eq_error_iff, fun error herror => ?_,
    fun otherScope otherValues => exists_evaluate_of_bound, expr.noteSymbols_eq_symbols,
    nodup_eraseDups _, exists_letters⟩
  obtain ⟨name, hname, rfl⟩ := evaluate_eq_error_iff_unbound.mp herror
  exact ⟨hname, rfl⟩

end Values

/-- A factor of zero does not keep `y` from being asked for, and it has no value when only
one is given. With a value for it, bindings of other names do not matter, and neither does
a second binding of the same name. -/
theorem evaluation_asks_for_the_symbols_zero_factor :
    (∃ error, (Expr.product (.const false) (.product (.sym "x") (.sym "y"))).evaluate
        ["x", "y"] [(5 : Int)] = .error error ∧ error.symbol = "y") ∧
      ∃ result, (Expr.product (.const false) (.product (.sym "x") (.sym "y"))).evaluate
          ["x", "y"] [(5 : Int), 3] = .ok result ∧
        (Expr.product (.const false) (.product (.sym "x") (.sym "y"))).evaluate
          ["y", "z", "x", "y"] [3, 7, 5, 4] = .ok result := by
  obtain ⟨hfails, hfirst, -⟩ := evaluation_asks_for_the_symbols
    (.product (.const false) (.product (.sym "x") (.sym "y"))) ["x", "y"] [(5 : Int)]
  obtain ⟨-, -, hagree, -⟩ := evaluation_asks_for_the_symbols
    (.product (.const false) (.product (.sym "x") (.sym "y"))) ["x", "y"] [(5 : Int), 3]
  apply And.intro
  · obtain ⟨error, herror⟩ := hfails.mpr ⟨"y", by decide, by decide⟩
    have hfound : some ("y" : SymbolName) = some error.symbol := (hfirst error herror).1
    exact ⟨error, herror, (Option.some.inj hfound).symm⟩
  · apply hagree ["y", "z", "x", "y"] [3, 7, 5, 4]
    intro name hname
    have hsymbols : name ∈ [("x" : SymbolName), "y"] := hname
    rcases List.mem_pair.mp hsymbols with rfl | rfl
    · exact ⟨5, ⟨by decide, by decide⟩, by decide, by decide⟩
    · exact ⟨3, ⟨by decide, by decide⟩, by decide, by decide⟩

end Expr

end ElectiveCalculus
