/-
# Counting parentheses

The reader looks for the parenthesis that closes a complement by counting
parentheses alone, in text that nobody has read yet. `depthAfter` is that count
by itself: the depth that a text leaves behind, or none as soon as more is closed
than was open. What the reader cuts at is described by it, whether or not the
text derives anything.
-/

import ElectiveCalculus.Expr.Parser
import Mathlib

namespace ElectiveCalculus

/-- The number of open parentheses after a text that begins with `depth` of them
open. There is none when the text closes one more than is open. -/
def depthAfter (depth : Nat) : Text → Option Nat
  | [] => some depth
  | unit :: rest =>
    if unit = CodeUnit.openParen then depthAfter (depth + 1) rest
    else if unit = CodeUnit.closeParen then
      if depth = 0 then none else depthAfter (depth - 1) rest
    else depthAfter depth rest

theorem closeParen_ne_openParen : CodeUnit.closeParen ≠ CodeUnit.openParen := by decide

@[simp] theorem depthAfter_nil (depth : Nat) : depthAfter depth [] = some depth := rfl

@[simp] theorem depthAfter_openParen (depth : Nat) (rest : Text) :
    depthAfter depth (CodeUnit.openParen :: rest) = depthAfter (depth + 1) rest := by
  simp [depthAfter]

@[simp] theorem depthAfter_closeParen (depth : Nat) (rest : Text) :
    depthAfter (depth + 1) (CodeUnit.closeParen :: rest) = depthAfter depth rest := by
  simp [depthAfter, closeParen_ne_openParen]

@[simp] theorem depthAfter_closeParen_zero (rest : Text) :
    depthAfter 0 (CodeUnit.closeParen :: rest) = none := by
  simp [depthAfter, closeParen_ne_openParen]

/-- Units other than parentheses leave the depth as it is. -/
theorem depthAfter_cons_of_ne {unit : CodeUnit} (depth : Nat) (rest : Text)
    (hopen : unit ≠ CodeUnit.openParen) (hclose : unit ≠ CodeUnit.closeParen) :
    depthAfter depth (unit :: rest) = depthAfter depth rest := by
  simp [depthAfter, hopen, hclose]

theorem depthAfter_append (depth : Nat) (first second : Text) :
    depthAfter depth (first ++ second) =
      (depthAfter depth first).bind fun reached => depthAfter reached second := by
  induction first generalizing depth with
  | nil => rfl
  | cons unit rest ih =>
      rw [List.cons_append, depthAfter, depthAfter]
      split
      · exact ih _
      · split
        · split
          · rfl
          · exact ih _
        · exact ih _

/-- The parentheses of a text are counted alike above any depth that it does not fall
below. -/
theorem depthAfter_add {depth reached : Nat} {text : Text} (more : Nat)
    (hdepth : depthAfter depth text = some reached) :
    depthAfter (depth + more) text = some (reached + more) := by
  induction text generalizing depth with
  | nil =>
      obtain rfl : depth = reached := Option.some.inj hdepth
      rfl
  | cons unit rest ih =>
      rw [depthAfter] at hdepth ⊢
      split at hdepth
      · rw [if_pos ‹_›, Nat.add_right_comm]
        exact ih hdepth
      · rw [if_neg ‹_›]
        split at hdepth
        · rw [if_pos ‹_›]
          split at hdepth
          · cases hdepth
          · rw [if_neg (by omega), Nat.sub_add_comm (by omega)]
            exact ih hdepth
        · rw [if_neg ‹_›]
          exact ih hdepth

/-- A text that never closes what was open before it is passed over: the cut is
made in what follows, at the depth that the text leaves behind. -/
theorem splitClosing_append {depth reached : Nat} {first : Text} (second : Text)
    (hdepth : depthAfter depth first = some reached) :
    splitClosing depth (first ++ second) =
      (splitClosing reached second).map fun (inside, after) => (first ++ inside, after) := by
  induction first generalizing depth with
  | nil =>
      obtain rfl : depth = reached := Option.some.inj hdepth
      simp
  | cons unit rest ih =>
      have pass {level : Nat} (h : depthAfter level rest = some reached) :
          (splitClosing level (rest ++ second)).map
              (fun (inside, after) => (unit :: inside, after)) =
            (splitClosing reached second).map
              fun (inside, after) => (unit :: rest ++ inside, after) := by
        rw [ih h, Option.map_map]
        rfl
      rw [List.cons_append, splitClosing]
      rw [depthAfter] at hdepth
      split at hdepth
      · rw [if_pos ‹_›]
        exact pass hdepth
      · rw [if_neg ‹_›]
        split at hdepth
        · rw [if_pos ‹_›]
          split at hdepth
          · cases hdepth
          · rw [if_neg ‹_›]
            exact pass hdepth
        · rw [if_neg ‹_›]
          exact pass hdepth

/-- The parenthesis behind a text that leaves the depth at zero is the one that
the cut is made at. -/
theorem splitClosing_closeParen {inside : Text} (after : Text)
    (hinside : depthAfter 0 inside = some 0) :
    splitClosing 0 (inside ++ CodeUnit.closeParen :: after) = some (inside, after) := by
  rw [splitClosing_append _ hinside]
  simp [splitClosing, closeParen_ne_openParen]

/-- Where a complement opens, a parenthesis does. -/
theorem getElem?_of_complementOpening {input : Text} {place : Nat}
    (hopens : complementOpening <+: input.drop place) :
    input[place]? = some CodeUnit.openParen := by
  obtain ⟨opened, hopened⟩ := hopens
  rw [← List.head?_drop, ← hopened]
  rfl

/-- A complement that is closed somewhere is split off whatever stands in it. -/
theorem splitTerm_complement {opened inside rest : Text}
    (hclosed : splitClosing 0 opened = some (inside, rest)) :
    splitTerm (complementOpening ++ opened) = .ok (.complement inside, rest) := by
  have hopened : Text.after? complementOpening (complementOpening ++ opened) = some opened :=
    Text.after?_eq_some_iff.mpr rfl
  have hfirst : complementOpening ++ opened =
      CodeUnit.openParen :: ([CodeUnit.digitOne, CodeUnit.minus] ++ opened) := rfl
  rw [hfirst] at hopened ⊢
  rw [splitTerm, if_pos rfl, hopened]
  simp only [hclosed]

/-- What stands before the cut closes all that was open before it but the complement that
the cut closes. -/
theorem depthAfter_of_splitClosing {nested : Nat} {text inside after : Text}
    (hsplit : splitClosing nested text = some (inside, after)) :
    depthAfter nested inside = some 0 := by
  induction text generalizing nested inside after with
  | nil => cases hsplit
  | cons unit rest ih =>
      have pass {level : Nat} (hfound : (splitClosing level rest).map
          (fun (inside, after) => (unit :: inside, after)) = some (inside, after)) :
          ∃ inner, inside = unit :: inner ∧ depthAfter level inner = some 0 := by
        obtain ⟨⟨inner, outer⟩, hinner, hpair⟩ := Option.map_eq_some_iff.mp hfound
        cases hpair
        exact ⟨inner, rfl, ih hinner⟩
      rw [splitClosing] at hsplit
      split at hsplit
      · next hopen =>
        obtain ⟨inner, rfl, hinner⟩ := pass hsplit
        rw [hopen, depthAfter_openParen, hinner]
      · next hopen =>
        split at hsplit
        · next hclose =>
          cases nested with
          | zero =>
              cases hsplit
              rfl
          | succ nested =>
              obtain ⟨inner, rfl, hinner⟩ := pass hsplit
              rw [hclose, depthAfter_closeParen]
              exact hinner
        · next hclose =>
          obtain ⟨inner, rfl, hinner⟩ := pass hsplit
          rw [depthAfter_cons_of_ne _ _ hopen hclose, hinner]

/-- Where there is no cut, nowhere in the text has more been closed than was open. -/
theorem count_le_of_splitClosing_eq_none {nested : Nat} {text part : Text}
    (hnone : splitClosing nested text = none) (hpart : part <+: text) :
    part.count CodeUnit.closeParen ≤ nested + part.count CodeUnit.openParen := by
  induction text generalizing nested part with
  | nil => simp [List.prefix_nil.mp hpart]
  | cons unit rest ih =>
      rcases List.prefix_cons_iff.mp hpart with rfl | ⟨tail, rfl, htail⟩
      · simp
      · rw [splitClosing] at hnone
        rw [List.count_cons, List.count_cons]
        split at hnone
        · next hopen =>
          have hcount := ih (Option.map_eq_none_iff.mp hnone) htail
          simp only [hopen, beq_self_eq_true, if_true, closeParen_ne_openParen.symm, beq_iff_eq,
            if_false]
          omega
        · next hopen =>
          split at hnone
          · next hclose =>
            split at hnone
            · cases hnone
            · have hcount := ih (Option.map_eq_none_iff.mp hnone) htail
              simp only [hclose, beq_self_eq_true, if_true, closeParen_ne_openParen, beq_iff_eq,
                if_false]
              omega
          · next hclose =>
            have hcount := ih (Option.map_eq_none_iff.mp hnone) htail
            simpa [hopen, hclose] using hcount

/-- The depth rises by what a text opens and falls by what it closes. -/
theorem count_of_depthAfter {depth reached : Nat} {text : Text}
    (hdepth : depthAfter depth text = some reached) :
    depth + text.count CodeUnit.openParen = reached + text.count CodeUnit.closeParen := by
  induction text generalizing depth with
  | nil =>
      obtain rfl : depth = reached := Option.some.inj hdepth
      rfl
  | cons unit rest ih =>
      rw [depthAfter] at hdepth
      split at hdepth
      · next hopen =>
        have hcount := ih hdepth
        rw [hopen, List.count_cons_self, List.count_cons_of_ne closeParen_ne_openParen.symm]
        omega
      · next hopen =>
        split at hdepth
        · next hclose =>
          split at hdepth
          · cases hdepth
          · have hcount := ih hdepth
            rw [hclose, List.count_cons_self, List.count_cons_of_ne closeParen_ne_openParen]
            omega
        · next hclose =>
          rw [List.count_cons_of_ne hopen, List.count_cons_of_ne hclose]
          exact ih hdepth

/-- A text whose own parentheses match: in no part that it begins with has more been closed than
was opened, and in the whole of it as much. -/
structure IsBalanced (text : Text) : Prop where
  closed_le_opened : ∀ part, part <+: text →
    part.count CodeUnit.closeParen ≤ part.count CodeUnit.openParen
  opened_eq_closed : text.count CodeUnit.openParen = text.count CodeUnit.closeParen

theorem isBalanced_of_depthAfter {text : Text} (hdepth : depthAfter 0 text = some 0) :
    IsBalanced text where
  closed_le_opened part hpart := by
    obtain ⟨rest, rfl⟩ := hpart
    rw [depthAfter_append] at hdepth
    obtain ⟨reached, hreached, -⟩ := Option.bind_eq_some_iff.mp hdepth
    have hcount := count_of_depthAfter hreached
    omega
  opened_eq_closed := by
    have hcount := count_of_depthAfter hdepth
    omega

/-- A text that ends more than `nested` parentheses below its start has the parenthesis that
the cut looks for. -/
theorem exists_splitClosing {nested depth reached : Nat} {text : Text}
    (hdepth : depthAfter depth text = some reached) (hfall : reached + nested < depth) :
    ∃ inside after, splitClosing nested text = some (inside, after) := by
  cases hsplit : splitClosing nested text with
  | none =>
      have hbalance := count_of_depthAfter hdepth
      have hcount := count_le_of_splitClosing_eq_none hsplit (List.prefix_refl text)
      omega
  | some found => exact ⟨found.1, found.2, rfl⟩

end ElectiveCalculus
