/-
# The ranges that the reader visits

The reader is called for the whole text, for what stands inside the parentheses of a first
term, and for what follows a term that has been read. Of each of these ranges something is
known before anything in it is read. Either it reaches to the end of the text and is not
inside any complement, or a closing parenthesis stands behind it and its own parentheses are
closed in it. What stands before it can always be continued to a whole expression, and every
parenthesis opened there is closed somewhere in the text.

A range is refused because its first term is, or because a range inside or behind that term
is refused. Every error is therefore reported at the start of a visited range whose first
term cannot be split off.
-/

import ElectiveCalculus.Proofs.RoundTrip
import Mathlib

namespace ElectiveCalculus

open Grammar

/-- The parenthesis opened just before a text is closed in it. -/
def ClosedIn (text : Text) : Prop :=
  ∃ inside after, text = inside ++ CodeUnit.closeParen :: after ∧ depthAfter 0 inside = some 0

/-- Every parenthesis opened before a position of a text is closed somewhere in the text. -/
def ClosedBefore (input : Text) (position : Nat) : Prop :=
  ∀ before after, input = before ++ CodeUnit.openParen :: after → before.length < position →
    ClosedIn after

/-- A range that the reader is called for when it reads `input`, between what stands before
and after it. What follows a first term is visited only when that term has been read, and only
when there is anything. -/
inductive Visited (input : Text) : (before range after : Text) → Prop
  | whole : Visited input [] input []
  | inside {before range after inner rest : Text} (hvisited : Visited input before range after)
      (hsplit : splitTerm range = .ok (.complement inner, rest)) :
      Visited input (before ++ complementOpening) inner (CodeUnit.closeParen :: (rest ++ after))
  | following {before range after rest : Text} {head : Head} {first : Expr}
      (hvisited : Visited input before range after) (hsplit : splitTerm range = .ok (head, rest))
      (hread : parseHead input before.length head = .ok first) (hrest : rest ≠ []) :
      Visited input (before ++ head.text) rest after

/-! ## First terms -/

section Split

variable {range rest : Text}

/-- A complement is split off at the parenthesis that closes it. -/
theorem splitClosing_of_splitTerm {inner : Text}
    (hsplit : splitTerm range = .ok (.complement inner, rest)) :
    ∃ opened, range = complementOpening ++ opened ∧
      splitClosing 0 opened = some (inner, rest) := by
  cases range with
  | nil => simp [splitTerm] at hsplit
  | cons unit tail =>
      rw [splitTerm] at hsplit
      split at hsplit
      · split at hsplit
        · cases hsplit
        · next opened hopened =>
          split at hsplit
          · cases hsplit
          · next hclosed =>
            cases hsplit
            exact ⟨opened, Text.after?_eq_some_iff.mp hopened, hclosed⟩
      · split at hsplit
        · cases hsplit
        · split at hsplit
          · cases hsplit
          · split at hsplit <;> cases hsplit

theorem length_of_splitTerm {head : Head} (hsplit : splitTerm range = .ok (head, rest)) :
    range.length = head.width + rest.length := by
  rw [eq_append_of_splitTerm hsplit, List.length_append, head.length_text]

/-- The parentheses of a first term are closed in it, whatever stands between them. -/
theorem depthAfter_head_text {head : Head} (hsplit : splitTerm range = .ok (head, rest)) :
    depthAfter 0 head.text = some 0 := by
  cases head with
  | letter unit =>
      have hletter := isLetter_of_splitTerm hsplit
      rw [Head.text, depthAfter_cons_of_ne _ _ (CodeUnit.ne_openParen_of_isLetter hletter)
        (CodeUnit.ne_closeParen_of_isLetter hletter), depthAfter_nil]
  | digit value => cases value <;> rfl
  | complement inner =>
      obtain ⟨opened, -, hclosed⟩ := splitClosing_of_splitTerm hsplit
      have hopening : depthAfter 0 complementOpening = some (0 + 1) := rfl
      have hinner := depthAfter_add 1 (depthAfter_of_splitClosing hclosed)
      rw [Head.text, depthAfter_append, depthAfter_append, hopening, Option.bind_some, hinner,
        Option.bind_some, depthAfter_closeParen, depthAfter_nil]

/-- A first term that has been read is a term of the grammar. -/
theorem exists_term_of_read {input : Text} {start : Nat} {head : Head} {first : Expr}
    (hsplit : splitTerm range = .ok (head, rest))
    (hread : parseHead input start head = .ok first) : ∃ term : Term, term.text = head.text := by
  obtain ⟨term, htext, -⟩ := exists_term_of_parseHead hsplit hread fun inside arg _ =>
    derives_of_parseRange inside
  exact ⟨term, htext⟩

/-- Why no first term can be split off a range. -/
inductive RefusedTerm : Text → ParseFault → Prop
  | missing : RefusedTerm [] .expectedExpression
  | notComplement {tail : Text}
      (hopening : ¬ complementOpening <+: CodeUnit.openParen :: tail) :
      RefusedTerm (CodeUnit.openParen :: tail) .expectedComplement
  | unclosed {opened : Text} (hunclosed : splitClosing 0 opened = none) :
      RefusedTerm (complementOpening ++ opened) .unbalancedParentheses
  | stray {unit : CodeUnit} {tail : Text} (hopen : unit ≠ CodeUnit.openParen)
      (hletter : ¬ unit.isLetter = true) (hzero : unit ≠ CodeUnit.digitZero)
      (hone : unit ≠ CodeUnit.digitOne) : RefusedTerm (unit :: tail) (.unexpectedUnit unit)

theorem refusedTerm_of_splitTerm {fault : ParseFault} (hsplit : splitTerm range = .error fault) :
    RefusedTerm range fault := by
  cases range with
  | nil =>
      cases hsplit
      exact .missing
  | cons unit tail =>
      rw [splitTerm] at hsplit
      split at hsplit
      · next hopen =>
        subst hopen
        split at hsplit
        · next hnone =>
          cases hsplit
          refine .notComplement fun hopens => ?_
          obtain ⟨opened, hopened⟩ := hopens
          rw [Text.after?_eq_some_iff.mpr hopened.symm] at hnone
          cases hnone
        · next opened hopened =>
          split at hsplit
          · next hunclosed =>
            cases hsplit
            rw [Text.after?_eq_some_iff.mp hopened]
            exact .unclosed hunclosed
          · cases hsplit
      · next hopen =>
        split at hsplit
        · cases hsplit
        · next hletter =>
          split at hsplit
          · cases hsplit
          · next hzero =>
            split at hsplit
            · cases hsplit
            · next hone =>
              cases hsplit
              exact .stray hopen hletter hzero hone

end Split

/-! ## What is known of a visited range -/

section Step

variable {input before range after : Text}

theorem ClosedIn.append {text : Text} (hclosed : ClosedIn text) (more : Text) :
    ClosedIn (text ++ more) := by
  obtain ⟨inside, after, rfl, hinside⟩ := hclosed
  exact ⟨inside, after ++ more, by simp, hinside⟩

/-- A text that ends below its start closes the parenthesis opened just before it. -/
theorem closedIn_of_depthAfter {depth reached : Nat} {text : Text}
    (hdepth : depthAfter depth text = some reached) (hfall : reached < depth) :
    ClosedIn text := by
  obtain ⟨inside, after, hsplit⟩ : ∃ inside after, splitClosing 0 text = some (inside, after) :=
    exists_splitClosing hdepth hfall
  exact ⟨inside, after, eq_append_of_splitClosing hsplit, depthAfter_of_splitClosing hsplit⟩

/-- Behind a place up to which everything is closed, a text whose parentheses are closed in it
may follow. -/
theorem ClosedBefore.append {chunk tail : Text} (hbefore : ClosedBefore input before.length)
    (hinput : input = before ++ (chunk ++ tail)) (hchunk : depthAfter 0 chunk = some 0) :
    ClosedBefore input (before ++ chunk).length := by
  intro left right hsplit hplace
  rcases Nat.lt_or_ge left.length before.length with hlt | hge
  · exact hbefore left right hsplit hlt
  · rw [hinput] at hsplit
    obtain ⟨between, rfl⟩ : before <+: left :=
      List.prefix_of_prefix_length_le ⟨_, rfl⟩ ⟨_, hsplit.symm⟩ hge
    rw [List.append_assoc, List.append_cancel_left_eq] at hsplit
    have hinside : (between ++ [CodeUnit.openParen]).length ≤ chunk.length := by
      simp only [List.length_append, List.length_singleton] at hplace ⊢
      omega
    obtain ⟨inside, rfl⟩ : between ++ [CodeUnit.openParen] <+: chunk :=
      List.prefix_of_prefix_length_le ⟨right, by simp [hsplit]⟩ ⟨tail, rfl⟩ hinside
    obtain rfl : inside ++ tail = right := by simpa using hsplit
    rw [List.append_assoc, List.singleton_append, depthAfter_append] at hchunk
    obtain ⟨depth, -, hinside⟩ := Option.bind_eq_some_iff.mp hchunk
    rw [depthAfter_openParen] at hinside
    exact (closedIn_of_depthAfter hinside (Nat.succ_pos depth)).append tail

theorem Visited.input_eq (hvisited : Visited input before range after) :
    input = before ++ (range ++ after) := by
  induction hvisited with
  | whole => simp
  | inside hvisited hsplit ih =>
      rw [ih, eq_append_of_splitTerm hsplit]
      simp [Head.text]
  | following hvisited hsplit hread hrest ih =>
      rw [ih, eq_append_of_splitTerm hsplit]
      simp

theorem Visited.drop_start (hvisited : Visited input before range after) :
    input.drop before.length = range ++ after := by
  rw [hvisited.input_eq, List.drop_left]

theorem Visited.drop_stop (hvisited : Visited input before range after) :
    input.drop (before.length + range.length) = after := by
  rw [← List.drop_drop, hvisited.drop_start, List.drop_left]

theorem Visited.opens {opened : Text}
    (hvisited : Visited input before (complementOpening ++ opened) after) :
    complementOpening <+: input.drop before.length := by
  rw [hvisited.drop_start, List.append_assoc]
  exact List.prefix_append _ _

theorem Visited.extract_eq (hvisited : Visited input before range after) :
    input.extract before.length (before.length + range.length) = range := by
  rw [List.extract_eq_take_drop, hvisited.drop_start, Nat.add_sub_cancel_left, List.take_left]

theorem Visited.length_eq (hvisited : Visited input before range after) :
    input.length = before.length + range.length + after.length := by
  rw [hvisited.input_eq, List.length_append, List.length_append, Nat.add_assoc]

/-- Every parenthesis opened before a visited range is closed somewhere in the text: the first
terms before the range are balanced, and those around it are as wide as their inside. -/
theorem Visited.closedBefore (hvisited : Visited input before range after) :
    ClosedBefore input before.length := by
  have following {before range after rest : Text} {head : Head}
      (hvisited : Visited input before range after)
      (hsplit : splitTerm range = .ok (head, rest))
      (hclosed : ClosedBefore input before.length) :
      ClosedBefore input (before ++ head.text).length := by
    have hinput : input = before ++ (head.text ++ (rest ++ after)) := by
      rw [hvisited.input_eq, eq_append_of_splitTerm hsplit, List.append_assoc]
    exact hclosed.append hinput (depthAfter_head_text hsplit)
  induction hvisited with
  | whole => exact fun before after hinput hplace => absurd hplace (Nat.not_lt_zero _)
  | inside hvisited hsplit ih =>
      -- the opening of a complement lies in front of what follows the complement
      intro left right hinput hplace
      apply following hvisited hsplit ih left right hinput
      simp only [Head.text, List.length_append] at hplace ⊢
      omega
  | following hvisited hsplit hread hrest ih => exact following hvisited hsplit ih

/-- A visited range reaches to the end of the text, behind nothing or a whole expression, or
its parentheses are closed in it and a closing one stands behind it. -/
theorem Visited.outermost_or_enclosed (hvisited : Visited input before range after) :
    (after = [] ∧ (before = [] ∨ Derivable before)) ∨
      (∃ outside, after = CodeUnit.closeParen :: outside) ∧ depthAfter 0 range = some 0 := by
  induction hvisited with
  | whole => exact Or.inl ⟨rfl, Or.inl rfl⟩
  | inside hvisited hsplit ih =>
      obtain ⟨opened, -, hclosed⟩ := splitClosing_of_splitTerm hsplit
      exact Or.inr ⟨⟨_, rfl⟩, depthAfter_of_splitClosing hclosed⟩
  | following hvisited hsplit hread hrest ih =>
      obtain ⟨term, hterm⟩ := exists_term_of_read hsplit hread
      rcases ih with ⟨rfl, hbefore⟩ | ⟨henclosed, hdepth⟩
      · refine Or.inl ⟨rfl, Or.inr ?_⟩
        rw [← hterm]
        rcases hbefore with rfl | ⟨phrase, rfl⟩
        · exact ⟨.single term, rfl⟩
        · exact ⟨phrase.append (.single term), phrase.text_append _⟩
      · rw [eq_append_of_splitTerm hsplit, depthAfter_append, depthAfter_head_text hsplit,
          Option.bind_some] at hdepth
        exact Or.inr ⟨henclosed, hdepth⟩

/-- Whatever expression is put in the place of a visited range, what stands before it can be
continued to a whole expression. -/
theorem Visited.exists_completion (hvisited : Visited input before range after)
    (phrase : Phrase) : ∃ more, Derivable (before ++ phrase.text ++ more) := by
  induction hvisited generalizing phrase with
  | whole => exact ⟨[], phrase, by simp⟩
  | inside hvisited hsplit ih =>
      obtain ⟨more, whole, htext⟩ := ih (.single (.complement phrase))
      exact ⟨CodeUnit.closeParen :: more, whole, by simp [htext, Phrase.text, Term.text]⟩
  | following hvisited hsplit hread hrest ih =>
      obtain ⟨term, hterm⟩ := exists_term_of_read hsplit hread
      obtain ⟨more, whole, htext⟩ := ih (.juxtaposed term phrase)
      exact ⟨more, whole, by simp [htext, Phrase.text, hterm]⟩

end Step

/-! ## Where errors come from -/

/-- An error is reported at the start of a visited range that has no first term. -/
theorem exists_visited_of_error {input : Text} {error : ParseError} (range : Text) :
    ∀ {before after : Text}, Visited input before range after →
      parseRange input before.length range = .error error →
        ∃ opening refused closing, Visited input opening refused closing ∧
          RefusedTerm refused error.fault ∧ error = ⟨error.fault, input, opening.length⟩ := by
  -- both ranges that the reader goes on to, inside and behind the first term, are shorter
  induction hlength : range.length using Nat.strong_induction_on generalizing range with
  | _ length ih =>
      intro before after hvisited herror
      subst hlength
      cases hsplit : splitTerm range with
      | error fault =>
          rw [parseRange_of_splitTerm_error hsplit] at herror
          cases herror
          exact ⟨before, range, after, hvisited, refusedTerm_of_splitTerm hsplit, rfl⟩
      | ok found =>
          obtain ⟨head, rest⟩ := found
          rw [parseRange_of_splitTerm hsplit] at herror
          rcases bind_eq_error_iff.mp herror with hhead | ⟨first, hread, hrest⟩
          · cases head with
            | letter unit => cases hhead
            | digit value => cases hhead
            | complement inner =>
                have hinner := map_eq_error_iff.mp hhead
                rw [← List.length_append] at hinner
                exact ih _ (length_inside_lt_of_splitTerm hsplit) inner rfl
                  (hvisited.inside hsplit) hinner
          · by_cases hnil : rest = []
            · rw [if_pos hnil] at hrest
              cases hrest
            · rw [if_neg hnil, map_eq_error_iff, ← head.length_text, ← List.length_append] at hrest
              exact ih _ (length_rest_lt_of_splitTerm hsplit) rest rfl
                (hvisited.following hsplit hread hnil) hrest

end ElectiveCalculus
