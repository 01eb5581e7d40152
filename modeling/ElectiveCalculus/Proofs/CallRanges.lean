/-
# The ranges of the calls

A reader by offsets could leave the range that it was called for: the opening of a complement is
compared with the whole text, and its closing parenthesis is counted out over units that nobody
has read. It never does. Every range that it is called for lies in the text, and reaches to the
end of it or stops at a closing parenthesis in front of which all that was opened in the range is
closed. An opening that stands at the start of a range is therefore in it to its last unit, and
in a range that does not reach to the end of the text the closing parenthesis is there to be
found.

The calls of a reading are those that one call makes after another, beginning with the call for
the whole text. Each way in which a call makes another leads from a visited range to a visited
range, so that what is known of visited ranges is known of all calls. A call for a range that
another call makes is for less than that was called for, which is why the reading ends.
-/

import ElectiveCalculus.Proofs.Cursor
import Mathlib

namespace ElectiveCalculus.Cursor

open Relation

variable {input : Text}

/-! ## The calls of a reading -/

/-- The ways in which one call makes another. -/
inductive Makes (input : Text) : (caller call : Call) → Prop
  /-- A range that is not empty has a first term to be read. -/
  | term {start stop : Nat} (hlt : start < stop) :
      Makes input ⟨.range, start, stop⟩ ⟨.term, start, stop⟩
  /-- What follows a first term that was read is a range of its own. -/
  | following {start stop : Nat} {first : TermAt start}
      (hread : (readTerm input start stop).outcome = .ok first) (hmore : first.next < stop) :
      Makes input ⟨.range, start, stop⟩ ⟨.range, first.next, stop⟩
  /-- Where a complement opens, its closing parenthesis is looked for. -/
  | closing {start stop : Nat} (hopens : complementOpening <+: input.drop start) :
      Makes input ⟨.term, start, stop⟩ ⟨.closing, start, stop⟩
  /-- What a complement has up to its closing parenthesis is a range of its own. -/
  | inside {start stop : Nat} {closing : ClosingAt start stop}
      (hopens : complementOpening <+: input.drop start)
      (hfound : findClosing input 0 start stop = some closing) :
      Makes input ⟨.term, start, stop⟩
        ⟨.range, start + complementOpening.length, closing.place⟩

/-- A call goes no further than the call that it was made by, and a range that is read for
another call begins behind the start of that. -/
structure Call.IsWithin (call caller : Call) : Prop where
  start_le_start : caller.start ≤ call.start
  stop_le_stop : call.stop ≤ caller.stop
  start_lt_start : call.procedure = .range → caller.start < call.start

theorem Makes.isWithin {caller call : Call} (hmakes : Makes input caller call) :
    call.IsWithin caller := by
  cases hmakes with
  | term hlt => exact ⟨Nat.le_refl _, Nat.le_refl _, fun hrange => by cases hrange⟩
  | @following start stop first hread hmore =>
      exact ⟨first.start_lt_next.le, Nat.le_refl _, fun _ => first.start_lt_next⟩
  | closing hopens => exact ⟨Nat.le_refl _, Nat.le_refl _, fun hrange => by cases hrange⟩
  | @inside start stop closing hopens hfound =>
      have hopening : 0 < complementOpening.length := by decide
      exact ⟨Nat.le_add_right _ _, closing.place_lt_stop.le,
        fun _ => Nat.lt_add_of_pos_right hopening⟩

/-- How much may be done for a call: what it was called for counts first, and the procedure that
was called second. -/
def Call.size (call : Call) : Nat :=
  3 * (call.stop - call.start) +
    match call.procedure with
    | .range => 2
    | .term => 1
    | .closing => 0

theorem Makes.size_lt {caller call : Call} (hmakes : Makes input caller call) :
    call.size < caller.size := by
  cases hmakes with
  | term hlt => exact Nat.lt_succ_self _
  | @following start stop first hread hmore =>
      have hstart := first.start_lt_next
      simp only [Call.size]
      omega
  | closing hopens => exact Nat.lt_succ_self _
  | @inside start stop closing hopens hfound =>
      have hopening := closing.opening_le_place
      have hstop := closing.place_lt_stop
      simp only [Call.size]
      omega

/-- No call makes calls without end, on whatever range of whatever text. -/
theorem wellFounded_makes (input : Text) :
    WellFounded fun call caller => Makes input caller call :=
  Subrelation.wf Makes.size_lt (measure Call.size).wf

/-- The calls made for a call. -/
def Call.activations (input : Text) (call : Call) : List Activation :=
  match call.procedure with
  | .range => (readRange input call.start call.stop).activations
  | .term => (readTerm input call.start call.stop).activations
  | .closing => (readClosing input call.start call.stop).activations

section Activations

variable {start stop : Nat} {activation : Activation}

theorem mem_activations_readRange :
    activation ∈ (readRange input start stop).activations ↔
      start < stop ∧
        ((activation = ⟨some ⟨.range, start, stop⟩, ⟨.term, start, stop⟩⟩ ∨
            activation ∈ (readTerm input start stop).activations) ∨
          ∃ first, (readTerm input start stop).outcome = .ok first ∧ first.next < stop ∧
            (activation = ⟨some ⟨.range, start, stop⟩, ⟨.range, first.next, stop⟩⟩ ∨
              activation ∈ (readRange input first.next stop).activations)) := by
  by_cases hlt : start < stop
  · rw [readRange, if_pos hlt, Reading.mem_activations_bind, Reading.activations_calledBy,
      List.mem_cons, Reading.outcome_calledBy]
    simp only [hlt, true_and]
    refine or_congr_right (exists_congr fun first => and_congr_right fun _ => ?_)
    split
    · next hmore => simp [Reading.mem_activations_bind, hmore]
    · next hmore => simp [hmore]
  · rw [readRange, if_neg hlt]
    simp [hlt]

theorem mem_activations_readTerm :
    activation ∈ (readTerm input start stop).activations ↔
      complementOpening <+: input.drop start ∧
        (activation = ⟨some ⟨.term, start, stop⟩, ⟨.closing, start, stop⟩⟩ ∨
          ∃ closing, findClosing input 0 start stop = some closing ∧
            (activation = ⟨some ⟨.term, start, stop⟩,
                ⟨.range, start + complementOpening.length, closing.place⟩⟩ ∨
              activation ∈ (readRange input (start + complementOpening.length)
                closing.place).activations)) := by
  by_cases hopens : complementOpening <+: input.drop start
  · rw [readTerm, getElem?_of_complementOpening hopens]
    simp [hopens, Reading.mem_activations_bind, activations_readClosing,
      outcome_readClosing_eq_ok_iff]
  · -- nothing is called for any other term, whether it is read or refused
    rw [readTerm]
    split
    · simp [hopens]
    · split
      · simp [hopens]
      · split
        · simp [hopens]
        · split
          · simp [hopens]
          · split <;> simp [hopens]

/-- The calls made for a call are those that it makes, and those made for these. -/
theorem Call.mem_activations_iff {root : Call} :
    activation ∈ root.activations input ↔
      ∃ call, Makes input root call ∧
        (activation = ⟨some root, call⟩ ∨ activation ∈ call.activations input) := by
  obtain ⟨procedure, start, stop⟩ := root
  cases procedure with
  | range =>
      rw [Call.activations, mem_activations_readRange]
      apply Iff.intro
      · rintro ⟨hlt, hterm | ⟨first, hread, hmore, hmem⟩⟩
        · exact ⟨_, .term hlt, hterm⟩
        · exact ⟨_, .following hread hmore, hmem⟩
      · rintro ⟨call, hmakes, hmem⟩
        cases hmakes with
        | term hlt => exact ⟨hlt, Or.inl hmem⟩
        | @following _ _ first hread hmore =>
            exact ⟨first.start_lt_next.trans hmore, Or.inr ⟨first, hread, hmore, hmem⟩⟩
  | term =>
      rw [Call.activations, mem_activations_readTerm]
      apply Iff.intro
      · rintro ⟨hopens, hclosing | ⟨closing, hfound, hmem⟩⟩
        · exact ⟨_, .closing hopens, Or.inl hclosing⟩
        · exact ⟨_, .inside hopens hfound, hmem⟩
      · rintro ⟨call, hmakes, hmem⟩
        cases hmakes with
        | closing hopens =>
            rw [Call.activations, activations_readClosing] at hmem
            exact ⟨hopens, Or.inl (hmem.resolve_right List.not_mem_nil)⟩
        | inside hopens hfound => exact ⟨hopens, Or.inr ⟨_, hfound, hmem⟩⟩
  | closing =>
      rw [Call.activations, activations_readClosing]
      apply Iff.intro
      · nofun
      · rintro ⟨call, hmakes, -⟩
        cases hmakes

/-- An activation that a call leads to: its caller is reached from that call, and makes it. -/
inductive Follows (input : Text) (root : Call) : Activation → Prop
  | intro {caller call : Call} (hreached : ReflTransGen (Makes input) root caller)
      (hmakes : Makes input caller call) : Follows input root ⟨some caller, call⟩

/-- The calls made for a call are all that it leads to, and no others. -/
theorem Call.mem_activations_iff_follows {root : Call} :
    activation ∈ root.activations input ↔ Follows input root activation := by
  induction root using (wellFounded_makes input).induction with
  | _ root ih =>
      rw [Call.mem_activations_iff]
      apply Iff.intro
      · rintro ⟨call, hmakes, rfl | hmem⟩
        · exact .intro .refl hmakes
        · obtain ⟨hreached, hlast⟩ := (ih call hmakes).mp hmem
          exact .intro (hreached.head hmakes) hlast
      · rintro ⟨hreached, hlast⟩
        rcases hreached.cases_head with rfl | ⟨call, hmakes, hreached⟩
        · exact ⟨_, hlast, Or.inl rfl⟩
        · exact ⟨call, hmakes, Or.inr ((ih call hmakes).mpr (.intro hreached hlast))⟩

/-- The calls of a reading are the one for the whole text and all that this leads to. -/
theorem mem_activations_read :
    activation ∈ (read input).activations ↔
      activation = ⟨none, .whole input⟩ ∨ Follows input (.whole input) activation := by
  rw [read, Reading.activations_calledBy, List.mem_cons, ← Call.mem_activations_iff_follows]
  rfl

end Activations

/-! ## Calls on visited ranges -/

/-- A call on a visited range. There is something to read for a term, and a complement is opened
where its closing parenthesis is looked for. -/
inductive Call.Visits (input : Text) : Call → Prop
  | range {before range after : Text} (hvisited : Visited input before range after) :
      Visits input ⟨.range, before.length, before.length + range.length⟩
  | term {before range after : Text} (hvisited : Visited input before range after)
      (hrange : range ≠ []) :
      Visits input ⟨.term, before.length, before.length + range.length⟩
  | closing {before opened after : Text}
      (hvisited : Visited input before (complementOpening ++ opened) after) :
      Visits input ⟨.closing, before.length,
        before.length + (complementOpening ++ opened).length⟩

section Step

variable {before range after opened : Text}

/-- What opens a complement for the whole text opens it in a visited range. -/
theorem exists_opened (hvisited : Visited input before range after)
    (hopens : complementOpening <+: input.drop before.length) :
    ∃ opened, range = complementOpening ++ opened := by
  rw [hvisited.drop_start] at hopens
  obtain ⟨behind, hbehind⟩ := hopens
  cases range with
  | nil =>
      -- behind an empty range the text ends, or a parenthesis closes
      rcases hvisited.outermost_or_enclosed with ⟨rfl, -⟩ | ⟨⟨outside, rfl⟩, -⟩ <;> cases hbehind
  | cons unit tail =>
      obtain rfl : CodeUnit.openParen = unit := (List.cons.inj hbehind).1
      obtain ⟨opened, hopened⟩ := ParseFault.opening_prefix_of_append hvisited ⟨behind, hbehind⟩
      exact ⟨opened, hopened.symm⟩

/-- A term that was read is the first term of its range, and reaches to what follows that. -/
theorem exists_split_of_readTerm (hvisited : Visited input before range after)
    (hrange : range ≠ []) {term : TermAt before.length}
    (hread : (readTerm input before.length (before.length + range.length)).outcome = .ok term) :
    ∃ head rest, splitTerm range = .ok (head, rest) ∧
      parseHead input before.length head = .ok term.expr ∧
        term.next = (before ++ head.text).length ∧
          before.length + range.length = term.next + rest.length := by
  cases hsplit : splitTerm range with
  | error fault =>
      rw [outcome_readTerm_of_error hvisited hrange hsplit] at hread
      cases hread
  | ok found =>
      obtain ⟨head, rest⟩ := found
      have hterm := outcome_readTerm_of_ok hvisited hsplit fun inner hhead => by
        subst hhead
        rw [← List.length_append]
        exact outcome_readRange inner (hvisited.inside hsplit)
      rw [hread] at hterm
      obtain ⟨first, hfirst, hpair⟩ := map_eq_ok_iff.mp hterm.symm
      obtain ⟨rfl, hnext⟩ := Prod.mk.inj hpair
      refine ⟨head, rest, rfl, hfirst, ?_, ?_⟩
      · rw [List.length_append, head.length_text, hnext]
      · rw [← hnext, length_of_splitTerm hsplit, Nat.add_assoc]

/-- The closing parenthesis of a complement stands behind what is inside that. -/
theorem exists_split_of_findClosing
    (hvisited : Visited input before (complementOpening ++ opened) after)
    {closing : ClosingAt before.length (before.length + (complementOpening ++ opened).length)}
    (hfound : findClosing input 0 before.length
      (before.length + (complementOpening ++ opened).length) = some closing) :
    ∃ inner rest, splitTerm (complementOpening ++ opened) = .ok (.complement inner, rest) ∧
      closing.place = (before ++ complementOpening).length + inner.length := by
  have hplace := map_place_findClosing_opening hvisited.drop_start rfl
  rw [hfound, Option.map_some] at hplace
  obtain ⟨⟨inner, rest⟩, hclosed, hplace⟩ := Option.map_eq_some_iff.mp hplace.symm
  refine ⟨inner, rest, splitTerm_complement hclosed, hplace.symm.trans ?_⟩
  rw [List.length_append]

/-- From a call on a visited range, only such calls are made. -/
theorem Makes.visits {caller call : Call} (hmakes : Makes input caller call)
    (hcaller : caller.Visits input) : call.Visits input := by
  cases hmakes with
  | term hlt =>
      cases hcaller with
      | range hvisited => exact .term hvisited fun hempty => by simp [hempty] at hlt
  | @following start stop first hread hmore =>
      cases hcaller with
      | @range before range after hvisited =>
          have hstart := first.start_lt_next
          have hrange : range ≠ [] := by
            rintro rfl
            rw [List.length_nil] at hmore
            omega
          obtain ⟨head, rest, hsplit, hhead, hnext, hstop⟩ :=
            exists_split_of_readTerm hvisited hrange hread
          have hrest : rest ≠ [] := by
            rintro rfl
            rw [List.length_nil] at hstop
            omega
          rw [hstop, hnext]
          exact .range (hvisited.following hsplit hhead hrest)
  | closing hopens =>
      cases hcaller with
      | term hvisited hrange =>
          obtain ⟨opened, rfl⟩ := exists_opened hvisited hopens
          exact .closing hvisited
  | inside hopens hfound =>
      cases hcaller with
      | term hvisited hrange =>
          obtain ⟨opened, rfl⟩ := exists_opened hvisited hopens
          obtain ⟨inner, rest, hsplit, hplace⟩ := exists_split_of_findClosing hvisited hfound
          rw [hplace, ← List.length_append]
          exact .range (hvisited.inside hsplit)

/-- Every call that the call for the whole text leads to is on a visited range. -/
theorem visits_of_reached {call : Call}
    (hreached : ReflTransGen (Makes input) (.whole input) call) :
    call.Visits input := by
  induction hreached with
  | refl =>
      have hwhole := Call.Visits.range (.whole : Visited input [] input [])
      rwa [List.length_nil, Nat.zero_add] at hwhole
  | tail _ hmakes ih => exact hmakes.visits ih

/-! ## No call leaves its range -/

/-- A term that was read reaches no further than its range. -/
theorem next_le_of_readTerm (hvisited : Visited input before range after) (hrange : range ≠ [])
    {term : TermAt before.length}
    (hread : (readTerm input before.length (before.length + range.length)).outcome = .ok term) :
    term.next ≤ before.length + range.length := by
  obtain ⟨head, rest, -, -, -, hstop⟩ := exists_split_of_readTerm hvisited hrange hread
  omega

/-- In a range that does not reach to the end of the text, a complement is closed. -/
theorem exists_findClosing (hvisited : Visited input before (complementOpening ++ opened) after)
    (hstop : before.length + (complementOpening ++ opened).length < input.length) :
    ∃ closing, findClosing input 0 before.length
      (before.length + (complementOpening ++ opened).length) = some closing := by
  have hafter : after ≠ [] := by
    rintro rfl
    rw [hvisited.length_eq, List.length_nil] at hstop
    omega
  have hplace := map_place_findClosing_opening hvisited.drop_start rfl
  cases hclosed : splitClosing 0 opened with
  | none => exact absurd (ParseFault.outermost_of_unclosed hvisited hclosed).1 hafter
  | some cut =>
      rw [hclosed, Option.map_some] at hplace
      obtain ⟨closing, hfound, -⟩ := Option.map_eq_some_iff.mp hplace
      exact ⟨closing, hfound⟩

end Step

/-- What a call may rely on: its range lies in the text, and what the call looks at or comes to
lies in its range. -/
structure Call.IsConfined (input : Text) (call : Call) : Prop where
  start_le_stop : call.start ≤ call.stop
  stop_le_length : call.stop ≤ input.length
  /-- Only a range may be empty: for a term there is something to read. -/
  start_lt_stop : call.procedure ≠ .range → call.start < call.stop
  /-- The range reaches to the end of the text, or its parentheses are closed in it and a closing
  one stands behind it. -/
  outermost_or_enclosed : call.stop = input.length ∨
    input[call.stop]? = some CodeUnit.closeParen ∧
      IsBalanced (input.extract call.start call.stop)
  /-- What opens a complement for the whole text opens it in the range. -/
  opening_inside : complementOpening <+: input.drop call.start →
    call.start + complementOpening.length ≤ call.stop
  /-- A term that is read has some units, all of them in the range. -/
  term_inside : call.procedure = .term → ∀ term : TermAt call.start,
    (readTerm input call.start call.stop).outcome = .ok term →
      call.start < term.next ∧ term.next ≤ call.stop
  /-- A closing parenthesis is missing at the end of the text only. -/
  closing_found : call.procedure = .closing → call.stop < input.length →
    ∃ closing, findClosing input 0 call.start call.stop = some closing

theorem Call.Visits.isConfined {call : Call} (hvisits : call.Visits input) :
    call.IsConfined input := by
  obtain ⟨before, range, after, hvisited, hstart, hstop⟩ :
      ∃ before range after, Visited input before range after ∧ call.start = before.length ∧
        call.stop = before.length + range.length := by
    cases hvisits with
    | range hvisited => exact ⟨_, _, _, hvisited, rfl, rfl⟩
    | term hvisited hrange => exact ⟨_, _, _, hvisited, rfl, rfl⟩
    | closing hvisited => exact ⟨_, _, _, hvisited, rfl, rfl⟩
  have hlength := hvisited.length_eq
  refine
    { start_le_stop := by omega
      stop_le_length := by omega
      start_lt_stop := ?_
      outermost_or_enclosed := ?_
      opening_inside := ?_
      term_inside := ?_
      closing_found := ?_ }
  · intro hprocedure
    cases hvisits with
    | range => contradiction
    | term hvisited hrange =>
        exact Nat.lt_add_of_pos_right (List.length_pos_iff.mpr hrange)
    | closing hvisited => exact Nat.lt_add_of_pos_right (Nat.succ_pos _)
  · rw [hstart, hstop, ← List.head?_drop, hvisited.drop_stop, hvisited.extract_eq]
    rcases hvisited.outermost_or_enclosed with ⟨rfl, -⟩ | ⟨⟨outside, rfl⟩, hdepth⟩
    · exact Or.inl hlength.symm
    · exact Or.inr ⟨rfl, isBalanced_of_depthAfter hdepth⟩
  · intro hopens
    rw [hstart] at hopens
    obtain ⟨opened, rfl⟩ := exists_opened hvisited hopens
    rw [hstart, hstop, List.length_append]
    omega
  · intro hterm term hread
    cases hvisits with
    | range => cases hterm
    | term hvisited hrange =>
        exact ⟨term.start_lt_next, next_le_of_readTerm hvisited hrange hread⟩
    | closing => cases hterm
  · intro hclosing hinside
    cases hvisits with
    | range => cases hclosing
    | term => cases hclosing
    | closing hvisited => exact exists_findClosing hvisited hinside

/-- Reading by offsets comes to what reading comes to. The calls made for it are those that the
call for the whole text leads to, and no call makes calls without end. Each of them stays in its
range. The call that it was made by reaches as far or farther, and a range is read for a call
only where it begins behind the start of that call's own. -/
theorem calls_stay_in_their_ranges (input : Text) :
    (read input).outcome = Expr.parse input ∧
      (∀ activation, activation ∈ (read input).activations ↔
        activation = ⟨none, .whole input⟩ ∨ Follows input (.whole input) activation) ∧
      WellFounded (fun call caller => Makes input caller call) ∧
      ∀ activation ∈ (read input).activations,
        activation.call.IsConfined input ∧
          ∀ caller, activation.caller = some caller → activation.call.IsWithin caller := by
  refine ⟨outcome_read input, fun activation => mem_activations_read, wellFounded_makes input,
    fun activation hmem => ?_⟩
  rcases mem_activations_read.mp hmem with rfl | ⟨hreached, hmakes⟩
  · exact ⟨(visits_of_reached .refl).isConfined, fun caller hcaller => by cases hcaller⟩
  · refine ⟨(hmakes.visits (visits_of_reached hreached)).isConfined, fun caller hcaller => ?_⟩
    cases hcaller
    exact hmakes.isWithin

/-- In `(1-(1-x))` the range of the inner complement ends in front of the last unit of the text,
and the closing parenthesis that is looked for in it is found. -/
theorem calls_stay_in_their_ranges_inner :
    (⟨some ⟨.term, 3, 8⟩, ⟨.closing, 3, 8⟩⟩ : Activation) ∈ (read "(1-(1-x))").activations ∧
      Call.IsConfined "(1-(1-x))" ⟨.closing, 3, 8⟩ := by
  have hmem : (⟨some ⟨.term, 3, 8⟩, ⟨.closing, 3, 8⟩⟩ : Activation) ∈
      (read "(1-(1-x))").activations := by
    have hcalls : (read "(1-(1-x))").activations.contains
        ⟨some ⟨.term, 3, 8⟩, ⟨.closing, 3, 8⟩⟩ = true := by cbv
    exact List.contains_iff_mem.mp hcalls
  exact ⟨hmem, ((calls_stay_in_their_ranges "(1-(1-x))").2.2.2 _ hmem).1⟩

end ElectiveCalculus.Cursor
