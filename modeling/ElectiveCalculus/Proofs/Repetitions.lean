/-
# Lists without their repetitions

A list is rid of repetitions by keeping the first occurrence of every entry. What is kept
stands in the order of the first occurrences, and keeping only some entries, or renaming
them apart, may be done before or after. Where entries are replaced by lists, it is enough
to replace the first occurrences, because what a later one would contribute is there already.

The proofs go along a list from its front: an entry at the end is kept when it does not
occur before.
-/

import Mathlib

namespace ElectiveCalculus

variable {α β : Type} [BEq α] [LawfulBEq α]

/-- An entry at the end that occurs before is a repetition. -/
theorem eraseDups_concat_of_mem {entries : List α} {last : α} (hlast : last ∈ entries) :
    (entries ++ [last]).eraseDups = entries.eraseDups := by
  rw [List.eraseDups_append]
  simp [List.removeAll, hlast]

/-- An entry at the end that does not occur before is kept. -/
theorem eraseDups_concat_of_not_mem {entries : List α} {last : α} (hlast : last ∉ entries) :
    (entries ++ [last]).eraseDups = entries.eraseDups ++ [last] := by
  rw [List.eraseDups_append]
  simp [List.removeAll, hlast, List.eraseDups_cons]

theorem eraseDups_filter (kept : α → Bool) (entries : List α) :
    (entries.filter kept).eraseDups = entries.eraseDups.filter kept := by
  induction entries using List.reverseRecOn with
  | nil => rfl
  | append_singleton entries last ih =>
      by_cases hkept : kept last = true
      · have hend : [last].filter kept = [last] := List.filter_cons_of_pos hkept
        rw [List.filter_append, hend]
        by_cases hlast : last ∈ entries
        · rw [eraseDups_concat_of_mem (List.mem_filter.mpr ⟨hlast, hkept⟩), ih,
            eraseDups_concat_of_mem hlast]
        · have hfresh : last ∉ entries.filter kept := fun h => hlast (List.mem_filter.mp h).1
          rw [eraseDups_concat_of_not_mem hfresh, ih, eraseDups_concat_of_not_mem hlast,
            List.filter_append, hend]
      · have hend : [last].filter kept = [] := List.filter_cons_of_neg hkept
        rw [List.filter_append, hend, List.append_nil, ih]
        by_cases hlast : last ∈ entries
        · rw [eraseDups_concat_of_mem hlast]
        · rw [eraseDups_concat_of_not_mem hlast, List.filter_append, hend, List.append_nil]

theorem eraseDups_removeAll (entries removed : List α) :
    (entries.removeAll removed).eraseDups = entries.eraseDups.removeAll removed :=
  eraseDups_filter _ entries

/-- The first entry with a property stands before whatever repeats it. -/
theorem find?_eraseDups (property : α → Bool) (entries : List α) :
    entries.eraseDups.find? property = entries.find? property := by
  rw [← List.head?_filter, ← eraseDups_filter, ← List.head?_filter]
  cases entries.filter property with
  | nil => rfl
  | cons first rest => rw [List.eraseDups_cons, List.head?_cons, List.head?_cons]

theorem eraseDups_map_of_injective [BEq β] [LawfulBEq β] {rename : α → β}
    (hinjective : Function.Injective rename) (entries : List α) :
    (entries.map rename).eraseDups = entries.eraseDups.map rename := by
  induction entries using List.reverseRecOn with
  | nil => rfl
  | append_singleton entries last ih =>
      rw [List.map_append, List.map_singleton]
      by_cases hlast : last ∈ entries
      · rw [eraseDups_concat_of_mem (List.mem_map_of_mem hlast), ih, eraseDups_concat_of_mem hlast]
      · have hfresh : rename last ∉ entries.map rename :=
          fun h => hlast ((List.mem_map_of_injective hinjective).mp h)
        rw [eraseDups_concat_of_not_mem hfresh, ih, eraseDups_concat_of_not_mem hlast,
          List.map_append, List.map_singleton]

/-! ## The order of the entries -/

/-- What is kept stands in the order of the first occurrences. -/
theorem pairwise_idxOf_eraseDups (entries : List α) :
    entries.eraseDups.Pairwise fun first second => entries.idxOf first < entries.idxOf second := by
  induction entries using List.reverseRecOn with
  | nil => exact List.Pairwise.nil
  | append_singleton entries last ih =>
      have hindex {entry : α} (hentry : entry ∈ entries.eraseDups) :
          (entries ++ [last]).idxOf entry = entries.idxOf entry :=
        List.idxOf_append_of_mem (List.mem_eraseDups.mp hentry)
      have hkept : entries.eraseDups.Pairwise fun first second =>
          (entries ++ [last]).idxOf first < (entries ++ [last]).idxOf second := by
        apply ih.imp_of_mem
        intro first second hfirst hsecond hbefore
        rwa [hindex hfirst, hindex hsecond]
      by_cases hlast : last ∈ entries
      · rwa [eraseDups_concat_of_mem hlast]
      · rw [eraseDups_concat_of_not_mem hlast, List.pairwise_append]
        refine ⟨hkept, List.pairwise_singleton _ _, ?_⟩
        intro entry hentry other hother
        obtain rfl := List.mem_singleton.mp hother
        rw [hindex hentry, List.idxOf_append_of_notMem hlast]
        exact Nat.lt_add_right _ (List.idxOf_lt_length_of_mem (List.mem_eraseDups.mp hentry))

theorem nodup_eraseDups (entries : List α) : entries.eraseDups.Nodup := by
  apply (pairwise_idxOf_eraseDups entries).imp
  rintro first _ hbefore rfl
  exact lt_irrefl _ hbefore

theorem eraseDups_of_nodup {entries : List α} (hdistinct : entries.Nodup) :
    entries.eraseDups = entries := by
  induction entries using List.reverseRecOn with
  | nil => rfl
  | append_singleton entries last ih =>
      obtain ⟨hentries, -, hdisjoint⟩ := List.nodup_append.mp hdistinct
      have hlast : last ∉ entries := fun h => hdisjoint last h last (List.mem_singleton.mpr rfl) rfl
      rw [eraseDups_concat_of_not_mem hlast, ih hentries]

/-- Taking out some entries does not change which of two others comes first. -/
theorem idxOf_lt_of_filter {kept : α → Bool} {first second : α} (hfirst : kept first = true)
    (hsecond : kept second = true) {entries : List α}
    (hbefore : (entries.filter kept).idxOf first < (entries.filter kept).idxOf second) :
    entries.idxOf first < entries.idxOf second := by
  induction entries with
  | nil => exact hbefore
  | cons entry rest ih =>
      by_cases hentry : kept entry = true
      · rw [List.filter_cons_of_pos hentry] at hbefore
        simp only [List.idxOf_cons] at hbefore ⊢
        cases hequal : entry == first <;> cases hother : entry == second <;> simp_all
      · have hne {other : α} (hother : kept other = true) : (entry == other) = false :=
          beq_false_of_ne fun heq => hentry (heq ▸ hother)
        rw [List.filter_cons_of_neg hentry] at hbefore
        rw [List.idxOf_cons, List.idxOf_cons, hne hfirst, hne hsecond]
        exact Nat.succ_lt_succ (ih hbefore)

/-! ## Entries replaced by lists -/

/-- Where entries are replaced by lists and repetitions are taken out, only the first
occurrences matter, of the entries and in the lists put for them. -/
theorem eraseDups_flatMap [BEq β] [LawfulBEq β] (image : α → List β) (entries : List α) :
    (entries.flatMap image).eraseDups =
      (entries.eraseDups.flatMap fun entry => (image entry).eraseDups).eraseDups := by
  induction entries using List.reverseRecOn with
  | nil => rfl
  | append_singleton entries last ih =>
      have happend : ((entries ++ [last]).flatMap image).eraseDups =
          (entries.flatMap image).eraseDups ++
            ((image last).removeAll (entries.flatMap image)).eraseDups := by
        rw [List.flatMap_append, List.flatMap_singleton, List.eraseDups_append]
      by_cases hlast : last ∈ entries
      · have hthere : (image last).removeAll (entries.flatMap image) = [] := by
          simp only [List.removeAll, List.filter_eq_nil_iff]
          intro part hpart
          simpa using ⟨last, hlast, hpart⟩
        rw [happend, hthere, List.eraseDups_nil, List.append_nil, ih, eraseDups_concat_of_mem hlast]
      · have hsame : (image last).eraseDups.removeAll
            (entries.eraseDups.flatMap fun entry => (image entry).eraseDups) =
              (image last).eraseDups.removeAll (entries.flatMap image) := by
          simp [List.removeAll, List.mem_flatMap, List.mem_eraseDups]
        rw [happend, ih, eraseDups_concat_of_not_mem hlast, List.flatMap_append,
          List.flatMap_singleton, List.eraseDups_append, hsame, ← eraseDups_removeAll,
          eraseDups_of_nodup (nodup_eraseDups _)]

end ElectiveCalculus
