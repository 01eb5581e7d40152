/-
# The reader accepts exactly the grammar

The reader works in ranges and looks for closing parentheses ahead of reading;
the grammar has derivations and scans nothing. The two agree on every text: what
is read has a derivation that denotes the tree, a derivation is read as the tree
that it denotes, and a text has one derivation at most.

One direction follows the recursion of the reader on shorter and shorter ranges,
the other the structure of derivations. Unambiguity is then a matter of trees,
because different derivations denote different ones.
-/

import ElectiveCalculus.Expr.Grammar
import ElectiveCalculus.Expr.Reading
import ElectiveCalculus.Proofs.Outcomes
import ElectiveCalculus.Proofs.Parenthesis
import Mathlib

namespace ElectiveCalculus

open Grammar

namespace CodeUnit

theorem ne_openParen_of_isLetter {unit : CodeUnit} (hletter : unit.isLetter = true) :
    unit ≠ openParen := by
  rintro rfl
  revert hletter
  decide

theorem ne_closeParen_of_isLetter {unit : CodeUnit} (hletter : unit.isLetter = true) :
    unit ≠ closeParen := by
  rintro rfl
  revert hletter
  decide

end CodeUnit

/-! ## Derived texts -/

namespace Grammar

theorem Term.text_ne_nil (term : Term) : term.text ≠ [] := by
  cases term <;> simp [Term.text, complementOpening]

theorem Phrase.text_ne_nil (phrase : Phrase) : phrase.text ≠ [] := by
  cases phrase with
  | single term => exact term.text_ne_nil
  | juxtaposed term rest =>
      intro h
      exact term.text_ne_nil (List.append_eq_nil_iff.mp h).1

mutual

/-- The parentheses of a derived term are closed in it, at any depth. -/
theorem Term.depthAfter_text (depth : Nat) (term : Term) :
    depthAfter depth term.text = some depth := by
  cases term with
  | letter unit isLetter =>
      rw [Term.text, depthAfter_cons_of_ne _ _ (CodeUnit.ne_openParen_of_isLetter isLetter)
        (CodeUnit.ne_closeParen_of_isLetter isLetter), depthAfter_nil]
  | zero => rfl
  | one => rfl
  | complement inside =>
      have hopening : depthAfter depth complementOpening = some (depth + 1) := rfl
      rw [Term.text, depthAfter_append, depthAfter_append, hopening, Option.bind_some,
        inside.depthAfter_text, Option.bind_some, depthAfter_closeParen, depthAfter_nil]

/-- The parentheses of a derived expression are closed in it, at any depth. -/
theorem Phrase.depthAfter_text (depth : Nat) (phrase : Phrase) :
    depthAfter depth phrase.text = some depth := by
  cases phrase with
  | single term => exact term.depthAfter_text depth
  | juxtaposed term rest =>
      rw [Phrase.text, depthAfter_append, term.depthAfter_text, Option.bind_some,
        rest.depthAfter_text]

end

/-- A unit of the notation: what some derived text has in it. -/
def isNotation (unit : CodeUnit) : Bool :=
  unit.isLetter ||
    [CodeUnit.digitZero, CodeUnit.digitOne, CodeUnit.minus, CodeUnit.openParen,
      CodeUnit.closeParen].contains unit

mutual

theorem Term.isNotation_of_mem_text {unit : CodeUnit} (term : Term) (hunit : unit ∈ term.text) :
    isNotation unit = true := by
  cases term with
  | letter letter isLetter =>
      obtain rfl := List.mem_singleton.mp hunit
      rw [isNotation, isLetter, Bool.true_or]
  | zero =>
      obtain rfl := List.mem_singleton.mp hunit
      rfl
  | one =>
      obtain rfl := List.mem_singleton.mp hunit
      rfl
  | complement inside =>
      simp only [Term.text, List.mem_append, complementOpening, List.mem_cons, List.not_mem_nil,
        or_false] at hunit
      rcases hunit with ((rfl | rfl | rfl) | hinside) | rfl
      · rfl
      · rfl
      · rfl
      · exact inside.isNotation_of_mem_text hinside
      · rfl

theorem Phrase.isNotation_of_mem_text {unit : CodeUnit} (phrase : Phrase)
    (hunit : unit ∈ phrase.text) : isNotation unit = true := by
  cases phrase with
  | single term => exact term.isNotation_of_mem_text hunit
  | juxtaposed term rest =>
      rcases List.mem_append.mp hunit with hterm | hrest
      · exact term.isNotation_of_mem_text hterm
      · exact rest.isNotation_of_mem_text hrest

end

/-- What the reader splits off a range that begins with a derived term. -/
def Term.head : Term → Head
  | .letter unit _ => .letter unit
  | .zero => .digit false
  | .one => .digit true
  | .complement inside => .complement inside.text

/-- A derived term is split off whatever follows it. -/
theorem Term.splitTerm_text (term : Term) (rest : Text) :
    splitTerm (term.text ++ rest) = .ok (term.head, rest) := by
  cases term with
  | letter unit isLetter =>
      have hopen := CodeUnit.ne_openParen_of_isLetter isLetter
      simp [Term.text, Term.head, splitTerm, hopen, isLetter]
  | zero => rfl
  | one => rfl
  | complement inside =>
      rw [Term.text, List.append_assoc, List.append_assoc]
      exact splitTerm_complement (splitClosing_closeParen rest (inside.depthAfter_text 0))

end Grammar

/-! ## What is derived is read -/

mutual

/-- The first term of a range is read as the tree that its derivation denotes. -/
theorem Grammar.Term.parseHead_head (input : Text) (start : Nat) (term : Term) :
    parseHead input start term.head = .ok term.denoted := by
  cases term with
  | letter unit isLetter => rfl
  | zero => rfl
  | one => rfl
  | complement inside =>
      rw [Term.head, parseHead, inside.parseRange_text]
      rfl

/-- A derived range is read as the tree that its derivation denotes, wherever in a
text it stands. -/
theorem Grammar.Phrase.parseRange_text (input : Text) (start : Nat) (phrase : Phrase) :
    parseRange input start phrase.text = .ok phrase.denoted := by
  cases phrase with
  | single term =>
      have hsplit := term.splitTerm_text []
      rw [List.append_nil] at hsplit
      rw [Phrase.text, parseRange_of_splitTerm hsplit, term.parseHead_head]
      rfl
  | juxtaposed term rest =>
      rw [Phrase.text, parseRange_of_splitTerm (term.splitTerm_text rest.text),
        term.parseHead_head]
      simp only [Except.bind, if_neg rest.text_ne_nil, rest.parseRange_text]
      rfl

end

/-! ## What is read is derived -/

theorem isLetter_of_splitTerm {range rest : Text} {unit : CodeUnit}
    (hsplit : splitTerm range = .ok (.letter unit, rest)) : unit.isLetter = true := by
  cases range with
  | nil => simp [splitTerm] at hsplit
  | cons first tail =>
      rw [splitTerm] at hsplit
      split at hsplit
      · split at hsplit
        · cases hsplit
        · split at hsplit <;> cases hsplit
      · split at hsplit
        · cases hsplit
          assumption
        · split at hsplit
          · cases hsplit
          · split at hsplit <;> cases hsplit

/-- The first term of a range has a derivation as soon as what stands inside it has
one. -/
theorem exists_term_of_parseHead {input range rest : Text} {start : Nat}
    {head : Head} {first : Expr} (hsplit : splitTerm range = .ok (head, rest))
    (hfirst : parseHead input start head = .ok first)
    (hinside : ∀ inside arg, head = .complement inside →
      parseRange input (start + complementOpening.length) inside = .ok arg →
      Derives inside arg) :
    ∃ term : Term, term.text = head.text ∧ term.denoted = first := by
  cases head with
  | letter unit =>
      cases hfirst
      exact ⟨.letter unit (isLetter_of_splitTerm hsplit), rfl, rfl⟩
  | digit value =>
      cases hfirst
      cases value with
      | false => exact ⟨.zero, rfl, rfl⟩
      | true => exact ⟨.one, rfl, rfl⟩
  | complement inside =>
      rcases map_eq_ok_iff.mp hfirst with ⟨arg, hread, rfl⟩
      rcases hinside inside arg rfl hread with ⟨phrase, rfl, rfl⟩
      exact ⟨.complement phrase, rfl, rfl⟩

/-- Whatever a range is read as was put together from its first term and from what
follows that, if anything does. -/
theorem exists_head_of_parseRange {input range : Text} {start : Nat} {expr : Expr}
    (hread : parseRange input start range = .ok expr) :
    ∃ head rest first, splitTerm range = .ok (head, rest) ∧
      parseHead input start head = .ok first ∧
        (rest = [] ∧ expr = first ∨
          ∃ second, parseRange input (start + head.width) rest = .ok second ∧
            expr = .product first second) := by
  cases hsplit : splitTerm range with
  | error fault =>
      rw [parseRange_of_splitTerm_error hsplit] at hread
      cases hread
  | ok found =>
      rcases found with ⟨head, rest⟩
      rw [parseRange_of_splitTerm hsplit] at hread
      rcases bind_eq_ok_iff.mp hread with ⟨first, hfirst, hrest⟩
      refine ⟨head, rest, first, rfl, hfirst, ?_⟩
      by_cases hnil : rest = []
      · rw [if_pos hnil] at hrest
        exact Or.inl ⟨hnil, (Except.ok.inj hrest).symm⟩
      · rw [if_neg hnil] at hrest
        rcases map_eq_ok_iff.mp hrest with ⟨second, hsecond, hproduct⟩
        exact Or.inr ⟨second, hsecond, hproduct.symm⟩

/-- A range that is read has a derivation of the tree that was read. The ranges
inside and behind its first term are shorter, and the induction is on length. -/
theorem derives_of_parseRange {input : Text} (range : Text) :
    ∀ {start : Nat} {expr : Expr}, parseRange input start range = .ok expr →
      Derives range expr := by
  induction hlength : range.length using Nat.strong_induction_on generalizing range with
  | _ length ih =>
      intro start expr hread
      subst hlength
      rcases exists_head_of_parseRange hread with ⟨head, rest, first, hsplit, hfirst, hrest⟩
      have hinside : ∀ inside arg, head = .complement inside →
          parseRange input (start + complementOpening.length) inside = .ok arg →
          Derives inside arg := by
        intro inside arg hhead
        have hshorter := length_inside_lt_of_splitTerm (hhead ▸ hsplit)
        exact ih inside.length hshorter inside rfl
      rcases exists_term_of_parseHead hsplit hfirst hinside with ⟨term, htext, rfl⟩
      have hrange : range = term.text ++ rest := by
        rw [htext]
        exact eq_append_of_splitTerm hsplit
      rcases hrest with ⟨rfl, rfl⟩ | ⟨second, hsecond, rfl⟩
      · refine ⟨.single term, ?_, rfl⟩
        rw [hrange, List.append_nil, Phrase.text]
      · have hshorter := length_rest_lt_of_splitTerm hsplit
        rcases ih rest.length hshorter rest rfl hsecond with ⟨phrase, rfl, rfl⟩
        exact ⟨.juxtaposed term phrase, hrange.symm, rfl⟩

/-- A range is read as a tree exactly when the grammar derives it as that tree,
wherever in a text it stands. -/
theorem parseRange_eq_ok_iff {input range : Text} {start : Nat} {expr : Expr} :
    parseRange input start range = .ok expr ↔ Derives range expr := by
  apply Iff.intro
  · exact derives_of_parseRange range
  · intro h
    rcases h with ⟨phrase, rfl, rfl⟩
    exact phrase.parseRange_text input start

/-! ## One derivation at most -/

namespace Grammar

theorem Term.denoted_ne_product (term : Term) (left right : Expr) :
    term.denoted ≠ .product left right := by
  cases term <;> simp [Term.denoted]

mutual

theorem Term.eq_of_denoted_eq (first second : Term) (h : first.denoted = second.denoted) :
    first = second := by
  cases first with
  | letter unit isLetter =>
      cases second with
      | letter other isLetter' =>
          simp only [Term.denoted, Expr.sym.injEq, List.cons.injEq, and_true] at h
          subst h
          rfl
      | zero | one | complement inside => simp [Term.denoted] at h
  | zero => cases second <;> simp [Term.denoted] at h ⊢
  | one => cases second <;> simp [Term.denoted] at h ⊢
  | complement inside =>
      cases second with
      | letter _ _ | zero | one => simp [Term.denoted] at h
      | complement other =>
          simp only [Term.denoted, Expr.not.injEq] at h
          rw [inside.eq_of_denoted_eq other h]

theorem Phrase.eq_of_denoted_eq (first second : Phrase) (h : first.denoted = second.denoted) :
    first = second := by
  cases first with
  | single term =>
      cases second with
      | single other => rw [term.eq_of_denoted_eq other h]
      | juxtaposed other rest => exact absurd h (term.denoted_ne_product _ _)
  | juxtaposed term rest =>
      cases second with
      | single other => exact absurd h.symm (other.denoted_ne_product _ _)
      | juxtaposed other otherRest =>
          simp only [Phrase.denoted, Expr.product.injEq] at h
          rw [term.eq_of_denoted_eq other h.1, rest.eq_of_denoted_eq otherRest h.2]

end

theorem Phrase.denoted_injective : Function.Injective Phrase.denoted :=
  Phrase.eq_of_denoted_eq

/-- The grammar is unambiguous: the reader gives two derivations of one text the same
tree, and a tree has one derivation. -/
theorem Phrase.text_injective : Function.Injective Phrase.text := by
  intro first second h
  have hfirst := first.parseRange_text [] 0
  have hsecond := second.parseRange_text [] 0
  rw [h, hsecond] at hfirst
  exact Phrase.denoted_injective (Except.ok.inj hfirst).symm

end Grammar

/-! ## Whole texts -/

theorem Expr.parse_eq_ok_iff {input : Text} {expr : Expr} :
    Expr.parse input = .ok expr ↔ Derives input expr :=
  parseRange_eq_ok_iff

/-- The outcome of reading does not depend on what is logged. -/
theorem Expr.outcome_read (input : Text) (settings : Log.Settings) :
    ((Expr.read input).run settings).outcome = (Expr.parse input).mapError .parse := by
  rw [Expr.read, Log.Logged.outcome_bind, Log.Logged.run_ofExcept]
  cases Expr.parse input with
  | error error => rfl
  | ok expr =>
      show ((Log.Logged.write _ _ _ >>= fun _ => pure expr).run settings).outcome = _
      rw [Log.Logged.outcome_bind, Log.Logged.run_write]
      rfl

theorem Expr.outcome_read_eq_ok_iff {input : Text} {expr : Expr} {settings : Log.Settings} :
    ((Expr.read input).run settings).outcome = .ok expr ↔ Expr.parse input = .ok expr := by
  rw [Expr.outcome_read, mapError_eq_ok_iff]

/-- Every text is either derived, by one derivation alone, and read as the tree that
this derivation denotes, or it is refused with a parse error. -/
theorem Expr.read_iff_derives (input : Text) (settings : Log.Settings) :
    (∀ expr, ((Expr.read input).run settings).outcome = .ok expr ↔ Derives input expr) ∧
      (Derivable input → ∃ phrase : Phrase, phrase.text = input ∧
        ((Expr.read input).run settings).outcome = .ok phrase.denoted ∧
        ∀ other : Phrase, other.text = input → other = phrase) ∧
      (¬ Derivable input → ∃ error : ParseError,
        ((Expr.read input).run settings).outcome = .error (.parse error)) := by
  have accepted (expr : Expr) :
      ((Expr.read input).run settings).outcome = .ok expr ↔ Derives input expr :=
    Expr.outcome_read_eq_ok_iff.trans Expr.parse_eq_ok_iff
  refine ⟨accepted, ?_, ?_⟩
  · intro h
    rcases h with ⟨phrase, htext⟩
    refine ⟨phrase, htext, (accepted _).mpr ⟨phrase, htext, rfl⟩, ?_⟩
    intro other hother
    exact Phrase.text_injective (hother.trans htext.symm)
  · intro hnone
    rw [Expr.outcome_read]
    cases hread : Expr.parse input with
    | error error => exact ⟨error, rfl⟩
    | ok expr =>
        obtain ⟨phrase, htext, -⟩ := Expr.parse_eq_ok_iff.mp hread
        exact absurd ⟨phrase, htext⟩ hnone

end ElectiveCalculus
