/-
# Operations that announce their results

An operation announces its result when it writes one line about it and writes nothing where it
fails. Of operations that do so, one after another, the log has a line for each that succeeded,
and the first failure ends it. When items are gone through in order, each from where the one
before it led, the lines tell how far that went; and items that are mapped leave their lines
one behind the other.
-/

import ElectiveCalculus.Proofs.LogNeutrality
import ElectiveCalculus.Proofs.Outcomes
import Mathlib

namespace ElectiveCalculus.Log.Logged

variable {ε α β : Type} {settings : Settings} {log written : List Entry}

theorem run_bind_ok {first : Logged ε α} {result : α} (next : α → Logged ε β)
    {outcome : Except ε β} (hfirst : first.run settings = ⟨log, .ok result⟩)
    (hnext : (next result).run settings = ⟨written, outcome⟩) :
    (first >>= next).run settings = ⟨log ++ written, outcome⟩ := by
  rw [run_bind_of_ok next (by rw [hfirst]), hfirst, hnext]

theorem run_bind_error {first : Logged ε α} {error : ε} (next : α → Logged ε β)
    (hfirst : first.run settings = ⟨log, .error error⟩) :
    (first >>= next).run settings = ⟨log, .error error⟩ := by
  rw [run_bind_of_error next (by rw [hfirst]), hfirst]

theorem run_bind_pure {operation : Logged ε α} {outcome : Except ε α} (make : α → β)
    (hrun : operation.run settings = ⟨log, outcome⟩) :
    (operation >>= fun result => pure (make result)).run settings = ⟨log, outcome.map make⟩ := by
  cases outcome with
  | error error => exact run_bind_error _ hrun
  | ok result =>
      have hpure := run_bind_ok (fun result => pure (make result)) hrun
        (run_pure (make result) settings)
      rwa [List.append_nil] at hpure

/-! ## Operations that announce their results -/

/-- The lines of a step: one about its result, and none where it fails. -/
def linesOf (describe : α → Entry) : Except ε α → List Entry
  | .ok result => [describe result]
  | .error _ => []

/-- When everything is logged, the operation writes one line about its result, and nothing where
it fails. -/
def Announces (operation : Logged ε α) (describe : α → Entry) : Prop :=
  (operation.run .everything).log = linesOf describe (operation.run .everything).outcome

theorem Announces.run_eq {operation : Logged ε α} {describe : α → Entry}
    (h : operation.Announces describe) {outcome : Except ε α}
    (houtcome : (operation.run .everything).outcome = outcome) :
    operation.run .everything = ⟨linesOf describe outcome, outcome⟩ := by
  rw [← houtcome, ← h]

/-- An operation that writes about its result just before it returns it. -/
theorem announces_write (outcome : Except ε α) (level : Level) (component : Component)
    (message : α → Unit → Text) :
    (ofExcept outcome >>= fun result =>
      write level component (message result) >>= fun _ => pure result).Announces
        fun result => ⟨level, component, message result ()⟩ := by
  rw [Announces]
  cases outcome with
  | error error => rw [run_bind_error _ (run_ofExcept (.error error) .everything)]; rfl
  | ok result =>
      have hwrite : (write level component (message result) : Logged ε Unit).run .everything =
          ⟨[⟨level, component, message result ()⟩], .ok ()⟩ := by
        rw [run_write, if_pos (isEnabled_everything level component)]
      rw [run_bind_ok _ (run_ofExcept (.ok result) .everything)
        (run_bind_ok _ hwrite (run_pure result .everything))]
      rfl

/-- A check in front of an operation writes nothing. -/
theorem Announces.after {operation : Logged ε α} {describe : α → Entry}
    (h : operation.Announces describe) (check : Except ε Unit) :
    (ofExcept check >>= fun _ => operation).Announces describe := by
  rw [Announces]
  cases check with
  | error error => rw [run_bind_error _ (run_ofExcept (.error error) .everything)]; rfl
  | ok _ =>
      rw [run_bind_ok _ (run_ofExcept (.ok _) .everything) (h.run_eq rfl)]
      rfl

/-! ## Several items -/

/-- Items are gone through one after another, each from where the one before it led, and every
one leaves a line about where it leads. -/
inductive Passes (step : β → α → Logged ε β) (describe : β → α → β → Entry) :
    β → List α → List Entry → β → Prop
  | nil {start : β} : Passes step describe start [] [] start
  | cons {start next reached : β} {item : α} {rest : List α} {lines : List Entry}
      (hstep : ((step start item).run .everything).outcome = .ok next)
      (hrest : Passes step describe next rest lines reached) :
      Passes step describe start (item :: rest) (describe start item next :: lines) reached

variable {step : β → α → Logged ε β} {describe : β → α → β → Entry} {start reached : β}
  {items : List α} {lines : List Entry}

theorem exists_passes (hfold : ((items.foldlM step start).run .everything).outcome = .ok reached) :
    ∃ lines, Passes step describe start items lines reached := by
  rw [outcome_foldlM] at hfold
  induction items generalizing start with
  | nil =>
      cases hfold
      exact ⟨[], .nil⟩
  | cons item rest ih =>
      rw [List.foldlM_cons] at hfold
      obtain ⟨next, hnext, hrest⟩ := bind_eq_ok_iff.mp hfold
      obtain ⟨lines, hlines⟩ := ih hrest
      exact ⟨_, .cons hnext hlines⟩

theorem Passes.run_append (hpasses : Passes step describe start items lines reached)
    (hstep : ∀ total item, (step total item).Announces (describe total item)) {after : List α}
    {outcome : Except ε β}
    (hafter : (after.foldlM step reached).run .everything = ⟨written, outcome⟩) :
    ((items ++ after).foldlM step start).run .everything = ⟨lines ++ written, outcome⟩ := by
  induction hpasses with
  | nil => exact hafter
  | @cons total _ _ item rest _ hnext _ ih =>
      have hrun := run_bind_ok (fun next => (rest ++ after).foldlM step next)
        ((hstep total item).run_eq hnext) (ih hafter)
      rw [List.cons_append, List.foldlM_cons, hrun]
      rfl

theorem Passes.run (hpasses : Passes step describe start items lines reached)
    (hstep : ∀ total item, (step total item).Announces (describe total item)) :
    (items.foldlM step start).run .everything = ⟨lines, .ok reached⟩ := by
  have hnone : (([] : List α).foldlM step reached).run .everything = ⟨[], .ok reached⟩ := rfl
  have hrun := hpasses.run_append hstep hnone
  rwa [List.append_nil, List.append_nil] at hrun

/-- There is one line for each item. -/
theorem Passes.map_component (hpasses : Passes step describe start items lines reached)
    {component : Component}
    (hcomponent : ∀ total item next, (describe total item next).component = component) :
    lines.map Entry.component = List.replicate items.length component := by
  induction hpasses with
  | nil => rfl
  | cons _ _ ih => rw [List.map_cons, ih, hcomponent, List.length_cons, List.replicate_succ]

/-- Items that are mapped leave their lines in order, in front of what is left by the items
behind them. -/
theorem run_mapM_append {step : α → Logged ε β} {describe : α → β → List Entry} {items : List α}
    {results : List β}
    (hitems : List.Forall₂ (fun item result =>
      (step item).run settings = ⟨describe item result, .ok result⟩) items results)
    {after : List α} {outcome : Except ε (List β)}
    (hafter : (after.mapM step).run settings = ⟨written, outcome⟩) :
    ((items ++ after).mapM step).run settings =
      ⟨(List.zipWith describe items results).flatten ++ written, outcome.map (results ++ ·)⟩ := by
  induction hitems with
  | nil =>
      rw [List.nil_append, hafter]
      cases outcome <;> rfl
  | @cons item result rest others hitem _ ih =>
      have hrun := run_bind_ok (fun first => (rest ++ after).mapM step >>= fun following =>
        pure (first :: following)) hitem (run_bind_pure (result :: ·) ih)
      rw [List.cons_append, List.mapM_cons, hrun, List.zipWith_cons_cons, List.flatten_cons,
        List.append_assoc]
      cases outcome <;> rfl

end ElectiveCalculus.Log.Logged
