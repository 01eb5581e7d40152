/-
# Trimmed texts

Trimming is described without saying how it is done. What it leaves stands in the text with
nothing but blanks around it and has no blank at either end, and no other text does so. A text
of blanks alone is trimmed to nothing, wherever in it the blanks before are taken to end.
-/

import ElectiveCalculus.Text.Blank
import Mathlib

namespace ElectiveCalculus

namespace Text

/-- A text of blanks alone. -/
def IsBlank (text : Text) : Prop := ∀ unit ∈ text, unit.isBlank = true

/-- A text is another one with blanks around it, and that one has no blank at its ends. -/
structure Pads (text side : Text) : Prop where
  around : ∃ before after, IsBlank before ∧ IsBlank after ∧ text = before ++ side ++ after
  first : ∀ unit ∈ side.head?, unit.isBlank = false
  last : ∀ unit ∈ side.getLast?, unit.isBlank = false

theorem dropBlanks_append {before : Text} (hbefore : IsBlank before) (text : Text) :
    dropBlanks (before ++ text) = dropBlanks text :=
  List.dropWhile_append_of_pos hbefore

theorem dropBlanks_of_first {text : Text} (hfirst : ∀ unit ∈ text.head?, unit.isBlank = false) :
    dropBlanks text = text := by
  cases text with
  | nil => rfl
  | cons unit rest => exact List.dropWhile_cons_of_neg (by simpa using hfirst unit rfl)

theorem dropBlanks_of_isBlank {text : Text} (htext : IsBlank text) : dropBlanks text = [] :=
  List.dropWhile_eq_nil_iff.mpr htext

theorem trim_of_pads {text side : Text} (hpads : Pads text side) : trim text = side := by
  obtain ⟨⟨before, after, hbefore, hafter, rfl⟩, hfirst, hlast⟩ := hpads
  have hreversed : IsBlank after.reverse := fun unit hunit =>
    hafter unit (List.mem_reverse.mp hunit)
  rw [trim, List.append_assoc, dropBlanks_append hbefore]
  cases side with
  | nil =>
      rw [List.nil_append, dropBlanks_of_isBlank hafter]
      rfl
  | cons unit rest =>
      have hopening : dropBlanks (unit :: rest ++ after) = unit :: rest ++ after :=
        dropBlanks_of_first hfirst
      have hclosing : dropBlanks (unit :: rest).reverse = (unit :: rest).reverse := by
        apply dropBlanks_of_first
        rwa [List.head?_reverse]
      rw [hopening, List.reverse_append, dropBlanks_append hreversed, hclosing,
        List.reverse_reverse]

theorem isBlank_of_mem_head?_dropBlanks {text : Text} {unit : CodeUnit}
    (hunit : unit ∈ (dropBlanks text).head?) : unit.isBlank = false := by
  have hfirst := List.head?_dropWhile_not CodeUnit.isBlank text
  have hkept : (text.dropWhile CodeUnit.isBlank).head? = some unit := hunit
  rw [hkept] at hfirst
  exact hfirst

theorem pads_trim (text : Text) : Pads text (trim text) where
  around := by
    refine ⟨text.takeWhile CodeUnit.isBlank, (dropBlanks text).rtakeWhile CodeUnit.isBlank,
      fun _ => List.mem_takeWhile_imp, fun _ => List.mem_rtakeWhile_imp, ?_⟩
    have hclosing : trim text ++ (dropBlanks text).rtakeWhile CodeUnit.isBlank = dropBlanks text :=
      List.rdropWhile_append_rtakeWhile
    rw [List.append_assoc, hclosing]
    exact List.takeWhile_append_dropWhile.symm
  first := by
    intro unit hunit
    obtain ⟨rest, hrest⟩ := List.head?_eq_some_iff.mp hunit
    obtain ⟨more, hmore⟩ : trim text <+: dropBlanks text :=
      List.rdropWhile_prefix CodeUnit.isBlank (dropBlanks text)
    apply isBlank_of_mem_head?_dropBlanks
    rw [← hmore, hrest]
    rfl
  last := by
    intro unit hunit
    rw [trim, List.getLast?_reverse] at hunit
    exact isBlank_of_mem_head?_dropBlanks hunit

/-- Nothing is trimmed off what has been trimmed. -/
theorem Pads.self {text side : Text} (hpads : Pads text side) : Pads side side where
  around := ⟨[], [], List.forall_mem_nil _, List.forall_mem_nil _, (List.append_nil side).symm⟩
  first := hpads.first
  last := hpads.last

theorem Pads.not_mem {text side : Text} {unit : CodeUnit} (hpads : Pads text side)
    (hunit : unit ∉ text) : unit ∉ side := by
  obtain ⟨before, after, -, -, rfl⟩ := hpads.around
  intro hside
  exact hunit (List.mem_append_left after (List.mem_append_right before hside))

theorem trim_eq_iff {text side : Text} : trim text = side ↔ Pads text side :=
  ⟨fun h => h ▸ pads_trim text, trim_of_pads⟩

end Text

end ElectiveCalculus
