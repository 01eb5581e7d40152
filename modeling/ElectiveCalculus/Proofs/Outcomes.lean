/-
# Outcomes of runs

The outcome of a logged operation does not depend on what is written. Taking
outcomes turns a sequence of logged operations into the same sequence of fallible
ones, so that facts about outcomes are facts about `Except` alone. A sequence of
these succeeds exactly when each of its steps does.
-/

import ElectiveCalculus.Log.Logged
import Mathlib

namespace ElectiveCalculus

variable {ε α β : Type}

theorem bind_eq_ok_iff {first : Except ε α} {next : α → Except ε β} {result : β} :
    first.bind next = .ok result ↔ ∃ value, first = .ok value ∧ next value = .ok result := by
  cases first with
  | error error => simp [Except.bind]
  | ok value => simp [Except.bind]

theorem bind_eq_error_iff {first : Except ε α} {next : α → Except ε β} {error : ε} :
    first.bind next = .error error ↔
      first = .error error ∨ ∃ value, first = .ok value ∧ next value = .error error := by
  cases first with
  | error other => simp [Except.bind]
  | ok value => simp [Except.bind]

theorem map_eq_ok_iff {step : α → β} {outcome : Except ε α} {result : β} :
    outcome.map step = .ok result ↔ ∃ value, outcome = .ok value ∧ step value = result := by
  cases outcome <;> simp [Except.map]

theorem map_eq_error_iff {step : α → β} {outcome : Except ε α} {error : ε} :
    outcome.map step = .error error ↔ outcome = .error error := by
  cases outcome <;> simp [Except.map]

theorem mapError_eq_ok_iff {δ : Type} {restate : δ → ε} {outcome : Except δ α} {result : α} :
    outcome.mapError restate = .ok result ↔ outcome = .ok result := by
  cases outcome <;> simp [Except.mapError]

theorem mapError_eq_error_iff {δ : Type} {restate : δ → ε} {outcome : Except δ α} {error : ε} :
    outcome.mapError restate = .error error ↔
      ∃ cause, outcome = .error cause ∧ error = restate cause := by
  cases outcome <;> simp [Except.mapError, eq_comm]

theorem exists_eq_ok_iff {outcome : Except ε α} :
    (∃ result, outcome = .ok result) ↔ ∀ error, outcome ≠ .error error := by
  cases outcome <;> simp

/-- Of two operations whose results are combined, the failure of the second one is seen
only where the first one succeeds. -/
theorem combine_eq_error_iff {γ : Type} {first : Except ε α} {second : Except ε β}
    {combine : α → β → γ} {error : ε} :
    (first.bind fun left => second.bind fun right => .ok (combine left right)) = .error error ↔
      first = .error error ∨ (∃ left, first = .ok left) ∧ second = .error error := by
  cases first <;> cases second <;> simp [Except.bind]

theorem mapM_congr {step other : α → Except ε β} {items : List α}
    (hagree : ∀ item ∈ items, step item = other item) : items.mapM step = items.mapM other := by
  induction items with
  | nil => rfl
  | cons item rest ih =>
      rw [List.mapM_cons, List.mapM_cons, hagree item List.mem_cons_self,
        ih fun following hfollowing => hagree following (List.mem_cons_of_mem _ hfollowing)]

/-- A list is mapped successfully exactly when every item is. -/
theorem mapM_eq_ok_iff {step : α → Except ε β} {items : List α} {results : List β} :
    items.mapM step = .ok results ↔
      List.Forall₂ (fun item result => step item = .ok result) items results := by
  induction items generalizing results with
  | nil =>
      rw [List.mapM_nil, List.forall₂_nil_left_iff]
      exact ⟨fun h => (Except.ok.inj h).symm, fun h => h ▸ rfl⟩
  | cons item rest ih =>
      rw [List.mapM_cons, List.forall₂_cons_left_iff]
      show (step item).bind (fun value => (rest.mapM step).bind fun values =>
        .ok (value :: values)) = .ok results ↔ _
      apply Iff.intro
      · intro h
        obtain ⟨value, hvalue, h⟩ := bind_eq_ok_iff.mp h
        obtain ⟨values, hvalues, h⟩ := bind_eq_ok_iff.mp h
        exact ⟨value, values, hvalue, ih.mp hvalues, (Except.ok.inj h).symm⟩
      · intro h
        rcases h with ⟨value, values, hvalue, hvalues, rfl⟩
        exact bind_eq_ok_iff.mpr ⟨value, hvalue, bind_eq_ok_iff.mpr ⟨values, ih.mpr hvalues, rfl⟩⟩

theorem exists_of_forall₂ {related : α → β → Prop} {items : List α} {results : List β}
    (h : List.Forall₂ related items results) :
    ∀ item ∈ items, ∃ result ∈ results, related item result := by
  induction h with
  | nil => exact fun item hitem => absurd hitem List.not_mem_nil
  | @cons first result rest results hfirst hrest ih =>
      intro item hitem
      rcases List.mem_cons.mp hitem with rfl | hitem
      · exact ⟨result, List.mem_cons_self, hfirst⟩
      · obtain ⟨other, hother, hrelated⟩ := ih item hitem
        exact ⟨other, List.mem_cons_of_mem _ hother, hrelated⟩

/-- A list can be mapped exactly when every item can be. -/
theorem exists_mapM_eq_ok_iff {step : α → Except ε β} {items : List α} :
    (∃ results, items.mapM step = .ok results) ↔
      ∀ item ∈ items, ∃ result, step item = .ok result := by
  simp only [mapM_eq_ok_iff]
  apply Iff.intro
  · intro h item hitem
    rcases h with ⟨results, hresults⟩
    rcases exists_of_forall₂ hresults item hitem with ⟨result, -, hresult⟩
    exact ⟨result, hresult⟩
  · intro h
    induction items with
    | nil => exact ⟨[], List.Forall₂.nil⟩
    | cons item rest ih =>
        rcases h item List.mem_cons_self with ⟨result, hresult⟩
        rcases ih fun other hother => h other (List.mem_cons_of_mem _ hother) with
          ⟨results, hresults⟩
        exact ⟨result :: results, List.Forall₂.cons hresult hresults⟩

/-- A list is mapped up to the first item that fails, and fails as that item does. -/
theorem mapM_eq_error_iff {step : α → Except ε β} {items : List α} {error : ε} :
    items.mapM step = .error error ↔
      ∃ before item after, items = before ++ item :: after ∧
        (∀ earlier ∈ before, ∃ result, step earlier = .ok result) ∧ step item = .error error := by
  apply Iff.intro
  · intro hfails
    induction items with
    | nil => cases hfails
    | cons first rest ih =>
        rw [List.mapM_cons] at hfails
        rcases bind_eq_error_iff.mp hfails with hfirst | ⟨result, hresult, hrest⟩
        · exact ⟨[], first, rest, rfl, by simp, hfirst⟩
        · rcases bind_eq_error_iff.mp hrest with hrest | ⟨_, -, hpure⟩
          · obtain ⟨before, item, after, rfl, hbefore, hitem⟩ := ih hrest
            refine ⟨first :: before, item, after, rfl, ?_, hitem⟩
            exact List.forall_mem_cons.mpr ⟨⟨result, hresult⟩, hbefore⟩
          · cases hpure
  · intro h
    rcases h with ⟨before, item, after, rfl, hbefore, hitem⟩
    rcases exists_mapM_eq_ok_iff.mpr hbefore with ⟨results, hresults⟩
    rw [List.mapM_append, hresults, List.mapM_cons, hitem]
    rfl

theorem isOk_eq_true_iff {outcome : Except ε α} :
    outcome.isOk = true ↔ ∃ result, outcome = .ok result := by
  cases outcome <;> simp [Except.isOk, Except.toBool]

/-- The item that a list is mapped up to is the first one that fails. -/
theorem mapM_eq_error_iff_find? {step : α → Except ε β} {items : List α} {error : ε} :
    items.mapM step = .error error ↔
      ∃ item, items.find? (fun item => !(step item).isOk) = some item ∧
        step item = .error error := by
  simp only [mapM_eq_error_iff, List.find?_eq_some_iff_append, Bool.not_not, isOk_eq_true_iff]
  apply Iff.intro
  · intro h
    rcases h with ⟨before, item, after, hentry, hbefore, hitem⟩
    exact ⟨item, ⟨by rw [hitem]; rfl, before, after, hentry, hbefore⟩, hitem⟩
  · intro h
    rcases h with ⟨item, ⟨-, before, after, hentry, hbefore⟩, hitem⟩
    exact ⟨before, item, after, hentry, hbefore, hitem⟩

/-- What every step of a fold preserves, a successful fold preserves. -/
theorem foldlM_invariant {step : β → α → Except ε β} {items : List α} (invariant : β → Prop)
    (hstep : ∀ total item next, item ∈ items → invariant total → step total item = .ok next →
      invariant next)
    {start result : β} (hstart : invariant start) (hfold : items.foldlM step start = .ok result) :
    invariant result := by
  induction items generalizing start with
  | nil =>
      cases hfold
      exact hstart
  | cons item rest ih =>
      rw [List.foldlM_cons] at hfold
      obtain ⟨next, hnext, hrest⟩ := bind_eq_ok_iff.mp hfold
      have hinvariant : invariant next := hstep start item next List.mem_cons_self hstart hnext
      apply ih _ hinvariant hrest
      intro total other following hother
      exact hstep total other following (List.mem_cons_of_mem _ hother)

/-- A fold fails at the first item whose step fails, from what the items before it made. -/
theorem foldlM_eq_error_iff {step : β → α → Except ε β} {items : List α} {start : β} {error : ε} :
    items.foldlM step start = .error error ↔
      ∃ before item after reached, items = before ++ item :: after ∧
        before.foldlM step start = .ok reached ∧ step reached item = .error error := by
  apply Iff.intro
  · intro hfails
    induction items generalizing start with
    | nil => cases hfails
    | cons first rest ih =>
        rw [List.foldlM_cons] at hfails
        rcases bind_eq_error_iff.mp hfails with hfirst | ⟨next, hnext, hrest⟩
        · exact ⟨[], first, rest, start, rfl, rfl, hfirst⟩
        · obtain ⟨before, item, after, reached, rfl, hbefore, hitem⟩ := ih hrest
          refine ⟨first :: before, item, after, reached, rfl, ?_, hitem⟩
          rw [List.foldlM_cons]
          exact bind_eq_ok_iff.mpr ⟨next, hnext, hbefore⟩
  · intro h
    rcases h with ⟨before, item, after, reached, rfl, hbefore, hitem⟩
    rw [List.foldlM_append, hbefore]
    show (item :: after).foldlM step reached = .error error
    rw [List.foldlM_cons]
    exact bind_eq_error_iff.mpr (Or.inl hitem)

namespace Log.Logged

variable (settings : Settings)

theorem outcome_bind_eq_ok_iff {first : Logged ε α} {next : α → Logged ε β} {result : β} :
    ((first >>= next).run settings).outcome = .ok result ↔
      ∃ value, (first.run settings).outcome = .ok value ∧
        ((next value).run settings).outcome = .ok result := by
  rw [outcome_bind, bind_eq_ok_iff]

theorem outcome_mapM (step : α → Logged ε β) (items : List α) :
    ((items.mapM step).run settings).outcome =
      items.mapM fun item => ((step item).run settings).outcome := by
  induction items with
  | nil => rfl
  | cons item rest ih =>
      rw [List.mapM_cons, List.mapM_cons, outcome_bind]
      apply congrArg
      funext value
      rw [outcome_bind, ih]
      rfl

theorem outcome_foldlM (step : β → α → Logged ε β) (items : List α) (start : β) :
    ((items.foldlM step start).run settings).outcome =
      items.foldlM (fun total item => ((step total item).run settings).outcome) start := by
  induction items generalizing start with
  | nil => rfl
  | cons item rest ih =>
      rw [List.foldlM_cons, List.foldlM_cons, outcome_bind]
      apply congrArg
      funext next
      exact ih next

end Log.Logged

end ElectiveCalculus
