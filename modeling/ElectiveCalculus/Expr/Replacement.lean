/-
# Replacing nodes

A replacement has a rule for some of the four kinds of nodes. Where a node has a rule, the
rule's answer takes the place of the whole node and nothing below the node is visited; where
it has none, the node is kept and its children are visited, the left one before the right
one.

Rules may have effects, which happen in the order in which nodes are visited. The pure
replacement is the case of no effect, and substitution is the replacement with a rule for
symbols alone.
-/

import ElectiveCalculus.Expr.Basic

namespace ElectiveCalculus

/-- Rules for some kinds of nodes. A rule is given the parts of the node it replaces. -/
structure Replacement (m : Type → Type) where
  sym : Option (SymbolName → m Expr)
  const : Option (Bool → m Expr)
  not : Option (Expr → m Expr)
  product : Option (Expr → Expr → m Expr)

namespace Replacement

/-- The replacement that puts `image name` in the place of every symbol. -/
def ofSymbols (image : SymbolName → Expr) : Replacement Id :=
  ⟨some image, none, none, none⟩

end Replacement

namespace Expr

/-- Replaces the nodes of an expression by rules that have effects. -/
def replaceNodesM {m : Type → Type} [Monad m] (rules : Replacement m) : Expr → m Expr
  | .sym name =>
    match rules.sym with
    | some rule => rule name
    | none => pure (.sym name)
  | .const value =>
    match rules.const with
    | some rule => rule value
    | none => pure (.const value)
  | .not arg =>
    match rules.not with
    | some rule => rule arg
    | none => do return .not (← arg.replaceNodesM rules)
  | .product left right =>
    match rules.product with
    | some rule => rule left right
    | none => do
      let first ← left.replaceNodesM rules
      let second ← right.replaceNodesM rules
      return .product first second

/-- Replaces the nodes of an expression by rules that have no effect. -/
def replaceNodes (rules : Replacement Id) (expr : Expr) : Expr := (expr.replaceNodesM rules).run

/-- Puts `image name` in the place of every symbol of an expression. -/
def substitute (image : SymbolName → Expr) (expr : Expr) : Expr :=
  expr.replaceNodes (.ofSymbols image)

/-- Puts one expression in the place of one symbol and leaves the other symbols alone. -/
def substituteSymbol (name : SymbolName) (image expr : Expr) : Expr :=
  expr.substitute fun other => if other = name then image else .sym other

@[simp] theorem substitute_sym (image : SymbolName → Expr) (name : SymbolName) :
    (Expr.sym name).substitute image = image name := rfl

@[simp] theorem substitute_const (image : SymbolName → Expr) (value : Bool) :
    (Expr.const value).substitute image = .const value := rfl

@[simp] theorem substitute_not (image : SymbolName → Expr) (arg : Expr) :
    (Expr.not arg).substitute image = .not (arg.substitute image) := rfl

@[simp] theorem substitute_product (image : SymbolName → Expr) (left right : Expr) :
    (Expr.product left right).substitute image =
      .product (left.substitute image) (right.substitute image) := rfl

/-! ## Rules that change a state

A node without a rule hands the state that its left child leaves to its right child. -/

section State

variable {σ : Type} {rules : Replacement (StateM σ)}

theorem run_replaceNodesM_not (missing : rules.not = none) (arg : Expr) (state : σ) :
    ((Expr.not arg).replaceNodesM rules).run state =
      (.not ((arg.replaceNodesM rules).run state).1, ((arg.replaceNodesM rules).run state).2) := by
  rw [replaceNodesM, missing]
  rfl

theorem run_replaceNodesM_product (missing : rules.product = none) (left right : Expr)
    (state : σ) :
    ((Expr.product left right).replaceNodesM rules).run state =
      let first := (left.replaceNodesM rules).run state
      let second := (right.replaceNodesM rules).run first.2
      (.product first.1 second.1, second.2) := by
  rw [replaceNodesM, missing]
  rfl

end State

end Expr

end ElectiveCalculus
