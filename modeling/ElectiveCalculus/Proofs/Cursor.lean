/-
# Reading by offsets

The ranges of a text can be read in two ways. `parseRange` is given the text of each range by
itself. A cursor stays in the one text and is given the offsets that a range begins and ends at;
whether a complement begins at the cursor is then asked of the whole text, and the closing
parenthesis is an offset as well. Nothing in such a question keeps it inside the range.

The reader by offsets is written here with a record of its calls: which procedure was called,
from where up to where, and by which other call. It ends because every term reaches past its
start and every closing parenthesis stands before the end of the range. That it reads what
`Expr.parse` reads, and refuses what that refuses with the same fault at the same position, is
shown through the ranges that are visited: in them a complement begins for the whole text
exactly when it begins in the range.
-/

import ElectiveCalculus.Proofs.FaultDiagnosis
import Mathlib

namespace ElectiveCalculus.Cursor

/-! ## Calls -/

/-- The procedures of the reader. One reads a range, one reads the first term of a range, and
one looks for the parenthesis that closes a complement. -/
inductive Procedure where
  | range
  | term
  | closing
  deriving DecidableEq, Repr

/-- A call of a procedure on the units of a text from `start` up to `stop`. -/
structure Call where
  procedure : Procedure
  start : Nat
  stop : Nat
  deriving DecidableEq, Repr

/-- A call with the call that it was made by. The first call of a reading was made by none. -/
structure Activation where
  caller : Option Call
  call : Call
  deriving DecidableEq, Repr

/-- What a reading came to, and every call that was made for it, in their order. -/
structure Reading (α : Type) where
  outcome : Except ParseError α
  activations : List Activation

namespace Reading

variable {α β : Type}

/-- A reading for which no call is made. -/
def ofExcept (outcome : Except ParseError α) : Reading α := ⟨outcome, []⟩

/-- Goes on with what was read. Where nothing was read, the calls made for it remain. -/
protected def bind (first : Reading α) (next : α → Reading β) : Reading β :=
  match first.outcome with
  | .error error => ⟨.error error, first.activations⟩
  | .ok result => ⟨(next result).outcome, first.activations ++ (next result).activations⟩

instance : Monad Reading where
  pure result := ofExcept (.ok result)
  bind := Reading.bind

/-- Refuses the text. -/
def fail (error : ParseError) : Reading α := ofExcept (.error error)

/-- A reading that is a call of its own. -/
def calledBy (caller : Option Call) (call : Call) (reading : Reading α) : Reading α :=
  ⟨reading.outcome, ⟨caller, call⟩ :: reading.activations⟩

variable {reading : Reading α} {next : α → Reading β} {activation : Activation}

@[simp] theorem outcome_pure (result : α) : (pure result : Reading α).outcome = .ok result := rfl

@[simp] theorem outcome_fail (error : ParseError) :
    (fail error : Reading α).outcome = .error error := rfl

@[simp] theorem outcome_calledBy (caller : Option Call) (call : Call) :
    (reading.calledBy caller call).outcome = reading.outcome := rfl

@[simp] theorem outcome_bind :
    (reading >>= next).outcome = reading.outcome.bind fun result => (next result).outcome := by
  change (reading.bind next).outcome = _
  rw [Reading.bind]
  cases reading.outcome <;> rfl

theorem outcome_bind_pure (make : α → β) :
    (reading >>= fun result => pure (make result)).outcome = reading.outcome.map make := by
  rw [outcome_bind]
  cases reading.outcome <;> rfl

@[simp] theorem activations_pure (result : α) : (pure result : Reading α).activations = [] := rfl

@[simp] theorem activations_fail (error : ParseError) :
    (fail error : Reading α).activations = [] := rfl

@[simp] theorem activations_calledBy (caller : Option Call) (call : Call) :
    (reading.calledBy caller call).activations = ⟨caller, call⟩ :: reading.activations := rfl

theorem mem_activations_bind :
    activation ∈ (reading >>= next).activations ↔
      activation ∈ reading.activations ∨
        ∃ result, reading.outcome = .ok result ∧ activation ∈ (next result).activations := by
  change activation ∈ (reading.bind next).activations ↔ _
  rw [Reading.bind]
  cases reading.outcome <;> simp

end Reading

/-! ## The reader -/

/-- A closing parenthesis that was found between two offsets. -/
structure ClosingAt (opening stop : Nat) where
  place : Nat
  opening_le_place : opening ≤ place
  place_lt_stop : place < stop

/-- A term that was read at an offset, and the offset just past it. -/
structure TermAt (start : Nat) where
  expr : Expr
  next : Nat
  start_lt_next : start < next

/-- The depth of parentheses behind a unit, from the depth in front of it. -/
def depthBehind (depth : Int) : Option CodeUnit → Int
  | none => depth
  | some unit =>
    if unit = CodeUnit.openParen then depth + 1
    else if unit = CodeUnit.closeParen then depth - 1
    else depth

/-- The first place from `place` on at which the depth is zero again. -/
def findClosing (input : Text) (depth : Int) (place stop : Nat) : Option (ClosingAt place stop) :=
  if hplace : place < stop then
    if depthBehind depth input[place]? = 0 then
      some ⟨place, Nat.le_refl place, hplace⟩
    else
      (findClosing input (depthBehind depth input[place]?) (place + 1) stop).map fun found =>
        ⟨found.place, Nat.le_of_succ_le found.opening_le_place, found.place_lt_stop⟩
  else
    none
termination_by stop - place

/-- Looks for the parenthesis that closes the one at `opening`. -/
def readClosing (input : Text) (opening stop : Nat) : Reading (ClosingAt opening stop) :=
  match findClosing input 0 opening stop with
  | none => .fail ⟨.unbalancedParentheses, input, opening⟩
  | some found => pure found

theorem activations_readClosing (input : Text) (opening stop : Nat) :
    (readClosing input opening stop).activations = [] := by
  rw [readClosing]
  split <;> rfl

theorem outcome_readClosing_eq_ok_iff {input : Text} {opening stop : Nat}
    {closing : ClosingAt opening stop} :
    (readClosing input opening stop).outcome = .ok closing ↔
      findClosing input 0 opening stop = some closing := by
  rw [readClosing]
  split <;> simp_all

mutual

/-- Reads the units from `start` up to `stop` as one expression. -/
def readRange (input : Text) (start stop : Nat) : Reading Expr :=
  if start < stop then do
    let first ← (readTerm input start stop).calledBy
      (some ⟨.range, start, stop⟩) ⟨.term, start, stop⟩
    if first.next < stop then do
      let second ← (readRange input first.next stop).calledBy
        (some ⟨.range, start, stop⟩) ⟨.range, first.next, stop⟩
      return .product first.expr second
    else
      return first.expr
  else
    .fail ⟨.expectedExpression, input, start⟩
termination_by 2 * (stop - start) + 1
decreasing_by
  · omega
  · have := first.start_lt_next
    omega

/-- Reads the term that begins at `start` in a range up to `stop`. Whether it is a complement
is asked of the whole text. -/
def readTerm (input : Text) (start stop : Nat) : Reading (TermAt start) :=
  match input[start]? with
  -- where a term is read, there is a unit to read
  | none => .fail ⟨.expectedExpression, input, start⟩
  | some unit =>
    if unit = CodeUnit.openParen then
      if complementOpening <+: input.drop start then do
        let closing ← (readClosing input start stop).calledBy
          (some ⟨.term, start, stop⟩) ⟨.closing, start, stop⟩
        let arg ← (readRange input (start + complementOpening.length) closing.place).calledBy
          (some ⟨.term, start, stop⟩)
          ⟨.range, start + complementOpening.length, closing.place⟩
        return ⟨.not arg, closing.place + 1, Nat.lt_succ_of_le closing.opening_le_place⟩
      else
        .fail ⟨.expectedComplement, input, start⟩
    else if unit.isLetter then
      return ⟨.sym [unit], start + 1, Nat.lt_succ_self start⟩
    else if unit = CodeUnit.digitZero then
      return ⟨.const false, start + 1, Nat.lt_succ_self start⟩
    else if unit = CodeUnit.digitOne then
      return ⟨.const true, start + 1, Nat.lt_succ_self start⟩
    else
      .fail ⟨.unexpectedUnit unit, input, start⟩
termination_by 2 * (stop - start)
decreasing_by
  have := closing.opening_le_place
  have := closing.place_lt_stop
  omega

end

/-- The call for a whole text. -/
def Call.whole (input : Text) : Call := ⟨.range, 0, input.length⟩

/-- Reads a whole text. -/
def read (input : Text) : Reading Expr :=
  (readRange input 0 input.length).calledBy none (.whole input)

/-- A range that is not empty is its first term, or the product of that with what follows. -/
theorem outcome_readRange_of_lt {input : Text} {start stop : Nat} (hlt : start < stop) :
    (readRange input start stop).outcome =
      (readTerm input start stop).outcome.bind fun first =>
        if first.next < stop then
          (readRange input first.next stop).outcome.map (Expr.product first.expr)
        else .ok first.expr := by
  rw [readRange, if_pos hlt, Reading.outcome_bind, Reading.outcome_calledBy]
  congr 1
  funext first
  split
  · rw [Reading.outcome_bind_pure, Reading.outcome_calledBy]
  · rfl

/-- A complement is what stands between its opening and the parenthesis that closes it. -/
theorem outcome_readTerm_of_opening {input : Text} {start stop : Nat}
    (hopens : complementOpening <+: input.drop start) :
    (readTerm input start stop).outcome =
      (readClosing input start stop).outcome.bind fun closing =>
        (readRange input (start + complementOpening.length) closing.place).outcome.map fun arg =>
          ⟨.not arg, closing.place + 1, Nat.lt_succ_of_le closing.opening_le_place⟩ := by
  rw [readTerm, getElem?_of_complementOpening hopens]
  dsimp only
  rw [if_pos rfl, if_pos hopens, Reading.outcome_bind, Reading.outcome_calledBy]
  congr 1
  funext closing
  rw [Reading.outcome_bind_pure, Reading.outcome_calledBy]

/-! ## The closing parenthesis -/

section Closing

variable {input text after : Text} {depth : Int} {nested place stop : Nat}

/-- The search goes on behind a place at which the depth is not zero. -/
theorem map_place_findClosing_succ (hplace : place < stop)
    (hdepth : depthBehind depth input[place]? ≠ 0) :
    (findClosing input depth place stop).map ClosingAt.place =
      (findClosing input (depthBehind depth input[place]?) (place + 1) stop).map
        ClosingAt.place := by
  rw [findClosing, dif_pos hplace, if_neg hdepth, Option.map_map]
  rfl

/-- The parenthesis is found by offsets where the text of the range is cut. -/
theorem map_place_findClosing (hdrop : input.drop place = text ++ after)
    (hstop : place + text.length = stop) :
    (findClosing input (nested + 1) place stop).map ClosingAt.place =
      (splitClosing nested text).map fun (inside, _) => place + inside.length := by
  induction text generalizing nested place with
  | nil =>
      rw [findClosing, dif_neg (by simp [← hstop])]
      rfl
  | cons unit rest ih =>
      have hunit : input[place]? = some unit := by
        rw [← List.head?_drop, hdrop]
        rfl
      have hrest : input.drop (place + 1) = rest ++ after := by
        rw [← List.drop_drop, hdrop]
        rfl
      rw [List.length_cons] at hstop
      have pass (level : Nat) (hdepth : depthBehind (nested + 1) (some unit) = level + 1) :
          (findClosing input (nested + 1) place stop).map ClosingAt.place =
            ((splitClosing level rest).map fun (inside, after) => (unit :: inside, after)).map
              fun (inside, _) => place + inside.length := by
        rw [← hunit] at hdepth
        rw [map_place_findClosing_succ (by omega) (by omega), hdepth, ih hrest (by omega),
          Option.map_map]
        congr 1
        funext cut
        simp only [Function.comp_apply, List.length_cons]
        omega
      rw [splitClosing]
      split
      · next hopens =>
        refine pass _ ?_
        simp [depthBehind, hopens]
      · next hopens =>
        split
        · next hcloses =>
          cases nested with
          | zero =>
              have hzero : depthBehind ((0 : Nat) + 1) input[place]? = 0 := by
                rw [hunit, hcloses]
                rfl
              rw [findClosing, dif_pos (by omega), if_pos hzero]
              rfl
          | succ nested =>
              refine pass _ ?_
              simp [depthBehind, hcloses, closeParen_ne_openParen]
        · next hcloses =>
          refine pass _ ?_
          simp [depthBehind, hopens, hcloses]

/-- Behind the opening of a complement the depth is one. -/
theorem map_place_findClosing_opening
    (hdrop : input.drop place = complementOpening ++ text ++ after)
    (hstop : place + (complementOpening ++ text).length = stop) :
    (findClosing input 0 place stop).map ClosingAt.place =
      (splitClosing 0 text).map fun (inside, _) =>
        place + complementOpening.length + inside.length := by
  have hsigns : splitClosing 0 ([CodeUnit.digitOne, CodeUnit.minus] ++ text) =
      (splitClosing 0 text).map fun (inside, after) =>
        ([CodeUnit.digitOne, CodeUnit.minus] ++ inside, after) :=
    splitClosing_append text rfl
  have hunit : input[place]? = some CodeUnit.openParen := by
    rw [← List.head?_drop, hdrop]
    rfl
  have hdepth : depthBehind 0 input[place]? = (0 : Nat) + 1 := by
    rw [hunit]
    rfl
  have hrest : input.drop (place + 1) =
      [CodeUnit.digitOne, CodeUnit.minus] ++ text ++ after := by
    rw [← List.drop_drop, hdrop]
    rfl
  have hlength : (complementOpening ++ text).length =
      1 + ([CodeUnit.digitOne, CodeUnit.minus] ++ text).length := by
    rw [complementOpening, List.length_append, List.length_append, List.length_cons]
    omega
  rw [map_place_findClosing_succ (by omega) (by omega), hdepth,
    map_place_findClosing hrest (by omega), hsigns, Option.map_map]
  congr 1
  funext cut
  simp only [Function.comp_apply, List.length_append, complementOpening, List.length_cons,
    List.length_nil]
  omega

end Closing

/-! ## First terms of visited ranges -/

section Term

variable {input before range after rest : Text} {head : Head}

/-- A range without a first term is refused by offsets as well, and for the same fault. -/
theorem outcome_readTerm_of_error {fault : ParseFault}
    (hvisited : Visited input before range after) (hrange : range ≠ [])
    (hsplit : splitTerm range = .error fault) :
    (readTerm input before.length (before.length + range.length)).outcome =
      .error ⟨fault, input, before.length⟩ := by
  have hdrop := hvisited.drop_start
  have hunit : input[before.length]? = (range ++ after).head? := by rw [← hdrop, List.head?_drop]
  cases refusedTerm_of_splitTerm hsplit with
  | missing => contradiction
  | @notComplement tail hopening =>
      have hcursor : ¬ complementOpening <+: input.drop before.length := by
        rw [hdrop]
        exact fun hopens => hopening (ParseFault.opening_prefix_of_append hvisited hopens)
      have hopen : input[before.length]? = some CodeUnit.openParen := hunit
      rw [readTerm, hopen]
      dsimp only
      rw [if_pos rfl, if_neg hcursor]
      rfl
  | @unclosed opened hunclosed =>
      have hnone : findClosing input 0 before.length
          (before.length + (complementOpening ++ opened).length) = none := by
        rw [← Option.map_eq_none_iff, map_place_findClosing_opening hdrop rfl, hunclosed]
        rfl
      rw [outcome_readTerm_of_opening hvisited.opens, readClosing, hnone]
      rfl
  | @stray unit tail hopen hletter hzero hone =>
      have hstray : input[before.length]? = some unit := hunit
      rw [readTerm, hstray]
      dsimp only
      rw [if_neg hopen, if_neg hletter, if_neg hzero, if_neg hone]
      rfl

/-- A first term is read by offsets as it is read by itself, and the offset just past it is
the start of what follows it, as soon as what stands inside it is read alike. -/
theorem outcome_readTerm_of_ok (hvisited : Visited input before range after)
    (hsplit : splitTerm range = .ok (head, rest))
    (hinside : ∀ inner, head = .complement inner →
      (readRange input (before.length + complementOpening.length)
          (before.length + complementOpening.length + inner.length)).outcome =
        parseRange input (before.length + complementOpening.length) inner) :
    (readTerm input before.length (before.length + range.length)).outcome.map
        (fun term => (term.expr, term.next)) =
      (parseHead input before.length head).map fun first =>
        (first, before.length + head.width) := by
  have hdrop := hvisited.drop_start
  have hrange := eq_append_of_splitTerm hsplit
  have hunit : input[before.length]? = (head.text ++ rest ++ after).head? := by
    rw [← hrange, ← hdrop, List.head?_drop]
  cases head with
  | letter unit =>
      have hletter := isLetter_of_splitTerm hsplit
      have hstart : input[before.length]? = some unit := hunit
      rw [readTerm, hstart]
      dsimp only
      rw [if_neg (CodeUnit.ne_openParen_of_isLetter hletter), if_pos hletter]
      rfl
  | digit value =>
      cases value with
      | false =>
          have hstart : input[before.length]? = some CodeUnit.digitZero := hunit
          rw [readTerm, hstart]
          rfl
      | true =>
          have hstart : input[before.length]? = some CodeUnit.digitOne := hunit
          rw [readTerm, hstart]
          rfl
  | complement inner =>
      obtain ⟨opened, rfl, hclosed⟩ := splitClosing_of_splitTerm hsplit
      have hplace := map_place_findClosing_opening hdrop rfl
      rw [hclosed, Option.map_some] at hplace
      obtain ⟨closing, hfound, hplace⟩ := Option.map_eq_some_iff.mp hplace
      dsimp only at hplace
      have hinner : (readRange input (before.length + complementOpening.length)
          closing.place).outcome =
            parseRange input (before.length + complementOpening.length) inner := by
        rw [hplace]
        exact hinside inner rfl
      have hnext : closing.place + 1 = before.length + (Head.complement inner).width := by
        rw [hplace, Head.width]
        omega
      rw [outcome_readTerm_of_opening hvisited.opens, readClosing, hfound]
      dsimp only
      rw [Reading.outcome_pure, Except.bind, hinner, parseHead, ← hnext]
      cases parseRange input (before.length + complementOpening.length) inner <;> rfl

end Term

/-! ## Ranges and whole texts -/

/-- A visited range is read by offsets as it is read by itself. -/
theorem outcome_readRange {input : Text} (range : Text) :
    ∀ {before after : Text}, Visited input before range after →
      (readRange input before.length (before.length + range.length)).outcome =
        parseRange input before.length range := by
  -- both ranges that the reader goes on to, inside and behind the first term, are shorter
  induction hlength : range.length using Nat.strong_induction_on generalizing range with
  | _ length ih =>
      intro before after hvisited
      subst hlength
      by_cases hrange : range = []
      · subst hrange
        rw [readRange, if_neg (by simp), parseRange_of_splitTerm_error rfl]
        rfl
      rw [outcome_readRange_of_lt (Nat.lt_add_of_pos_right (List.length_pos_iff.mpr hrange))]
      cases hsplit : splitTerm range with
      | error fault =>
          rw [outcome_readTerm_of_error hvisited hrange hsplit,
            parseRange_of_splitTerm_error hsplit]
          rfl
      | ok found =>
          obtain ⟨head, rest⟩ := found
          have hterm := outcome_readTerm_of_ok hvisited hsplit fun inner hhead => by
            subst hhead
            rw [← List.length_append]
            exact ih _ (length_inside_lt_of_splitTerm hsplit) inner rfl (hvisited.inside hsplit)
          rw [parseRange_of_splitTerm hsplit]
          cases hread : parseHead input before.length head with
          | error error =>
              rw [hread] at hterm
              rw [map_eq_error_iff.mp hterm]
              rfl
          | ok first =>
              rw [hread] at hterm
              obtain ⟨term, houtcome, hpair⟩ := map_eq_ok_iff.mp hterm
              obtain ⟨rfl, hnext⟩ := Prod.mk.inj hpair
              have hstop : before.length + range.length = term.next + rest.length := by
                rw [hnext, length_of_splitTerm hsplit, Nat.add_assoc]
              rw [houtcome, Except.bind, Except.bind, hstop]
              by_cases hrest : rest = []
              · rw [if_pos hrest, if_neg (by simp [hrest])]
              · have hfollowing := ih _ (length_rest_lt_of_splitTerm hsplit) rest rfl
                  (hvisited.following hsplit hread hrest)
                rw [List.length_append, head.length_text, ← hnext] at hfollowing
                rw [if_neg hrest, ← hnext,
                  if_pos (Nat.lt_add_of_pos_right (List.length_pos_iff.mpr hrest)), hfollowing]

/-- The reader by offsets reads what the reader of ranges reads, and refuses a text with the
same fault at the same position. -/
theorem outcome_read (input : Text) : (read input).outcome = Expr.parse input := by
  have hrange := outcome_readRange input (.whole : Visited input [] input [])
  rwa [List.length_nil, Nat.zero_add] at hrange

end ElectiveCalculus.Cursor
