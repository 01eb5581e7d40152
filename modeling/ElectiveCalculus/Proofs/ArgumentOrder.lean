/-
# The order of arguments

Behind a command the arguments come in blocks, which are a positional argument by itself or an
option with its value. Nothing else can stand there, except that the last option may lack its
value. What is read of the blocks are the positional arguments in their order and, for either
option, the names in its last value. So it does not matter between which positional arguments
an option stands, nor what an earlier value of it was.
-/

import ElectiveCalculus.CommandLine.Program
import Mathlib

namespace ElectiveCalculus.CommandLine

namespace ValuedOption

@[simp] theorem ofSpelling?_spelling (option : ValuedOption) :
    ofSpelling? option.spelling = some option := by
  cases option <;> decide

theorem ofSpelling?_eq_some_iff {argument : Text} {option : ValuedOption} :
    ofSpelling? argument = some option ↔ argument = option.spelling := by
  apply Iff.intro
  · intro h
    rw [ofSpelling?] at h
    have hspelling := List.find?_some h
    exact (beq_iff_eq.mp hspelling).symm
  · rintro rfl
    exact ofSpelling?_spelling option

theorem ofSpelling?_eq_none_iff {argument : Text} :
    ofSpelling? argument = none ↔ ∀ option : ValuedOption, argument ≠ option.spelling := by
  simp only [Option.eq_none_iff_forall_ne_some, ne_eq, ofSpelling?_eq_some_iff]

end ValuedOption

/-- Arguments that are read together: a positional one, which no option is spelled like, or an
option with any argument behind it for its value. -/
inductive Block where
  | positional (argument : Text) (hplain : ∀ option : ValuedOption, argument ≠ option.spelling)
  | valued (option : ValuedOption) (value : Text)

namespace Block

/-- The arguments of a block. -/
def texts : Block → List Text
  | .positional argument _ => [argument]
  | .valued option value => [option.spelling, value]

def positional? : Block → Option Text
  | .positional argument _ => some argument
  | .valued _ _ => none

def valueOf? (option : ValuedOption) : Block → Option Text
  | .positional _ _ => none
  | .valued other value => if other = option then some value else none

/-- The arguments of several blocks, one behind the other. -/
def written (blocks : List Block) : List Text := blocks.flatMap texts

/-- The positional arguments of several blocks. -/
def positionals (blocks : List Block) : List Text := blocks.filterMap positional?

/-- The names in the last value that several blocks have for an option. -/
def lastNames (option : ValuedOption) (blocks : List Block) : Option (List Text) :=
  (blocks.filterMap (valueOf? option)).getLast?.map Arguments.names

/-- What is read of several blocks. -/
def collected (blocks : List Block) : Arguments :=
  ⟨positionals blocks, lastNames .scope blocks, lastNames .eliminate blocks⟩

end Block

open Block

namespace Arguments

/-! ## Reading blocks -/

/-- The arguments with one more block behind them. -/
def add (read : Arguments) : Block → Arguments
  | .positional argument _ => read.addPositional argument
  | .valued option value => read.setOption (names value) option

theorem readOnto_texts_append (read : Arguments) (block : Block) (rest : List Text) :
    readOnto read (block.texts ++ rest) = readOnto (read.add block) rest := by
  cases block with
  | positional argument hplain =>
      rw [texts, List.singleton_append, readOnto, ValuedOption.ofSpelling?_eq_none_iff.mpr hplain]
      rfl
  | valued option value =>
      rw [texts, List.cons_append, readOnto, ValuedOption.ofSpelling?_spelling]
      rfl

theorem readOnto_written_append (blocks : List Block) (read : Arguments) (rest : List Text) :
    readOnto read (written blocks ++ rest) = readOnto (blocks.foldl add read) rest := by
  induction blocks generalizing read with
  | nil => rfl
  | cons block blocks ih =>
      rw [written, List.flatMap_cons, List.append_assoc, readOnto_texts_append, List.foldl_cons]
      exact ih (read.add block)

theorem add_collected (blocks : List Block) (block : Block) :
    (collected blocks).add block = collected (blocks ++ [block]) := by
  cases block with
  | positional argument hplain =>
      simp [add, addPositional, collected, positionals, lastNames, positional?, valueOf?]
  | valued option value =>
      cases option <;>
        simp [add, setOption, collected, positionals, lastNames, positional?, valueOf?]

/-- Block by block what is read is what the blocks up to there have. -/
theorem foldl_add_empty (blocks : List Block) : blocks.foldl add empty = collected blocks := by
  induction blocks using List.reverseRecOn with
  | nil => rfl
  | append_singleton blocks block ih =>
      rw [List.foldl_append, ih, List.foldl_cons, List.foldl_nil, add_collected]

/-- The arguments are blocks, or blocks and an option behind them. -/
theorem exists_blocks (arguments : List Text) :
    ∃ blocks, arguments = written blocks ∨
      ∃ option : ValuedOption, arguments = written blocks ++ [option.spelling] := by
  have behind (block : Block) {rest : List Text}
      (h : ∃ blocks, rest = written blocks ∨
        ∃ option : ValuedOption, rest = written blocks ++ [option.spelling]) :
      ∃ blocks, block.texts ++ rest = written blocks ∨
        ∃ option : ValuedOption, block.texts ++ rest = written blocks ++ [option.spelling] := by
    rcases h with ⟨blocks, rfl | ⟨option, rfl⟩⟩
    · exact ⟨block :: blocks, Or.inl rfl⟩
    · exact ⟨block :: blocks, Or.inr ⟨option, (List.append_assoc _ _ _).symm⟩⟩
  -- the cases are those of reading, whatever has been read before
  fun_induction readOnto empty arguments with
  | case1 => exact ⟨[], Or.inl rfl⟩
  | case2 _ argument rest hplain ih =>
      exact behind (.positional argument (ValuedOption.ofSpelling?_eq_none_iff.mp hplain)) ih
  | case3 _ argument option hoption =>
      rw [ValuedOption.ofSpelling?_eq_some_iff.mp hoption]
      exact ⟨[], Or.inr ⟨option, rfl⟩⟩
  | case4 _ argument option hoption value others ih =>
      rw [ValuedOption.ofSpelling?_eq_some_iff.mp hoption]
      exact behind (.valued option value) ih

theorem read_written (blocks : List Block) : read (written blocks) = .ok (collected blocks) := by
  have hread := readOnto_written_append blocks empty []
  rwa [List.append_nil, foldl_add_empty] at hread

theorem read_written_append (blocks : List Block) (option : ValuedOption) :
    read (written blocks ++ [option.spelling]) = .error option := by
  rw [read, readOnto_written_append, readOnto, ValuedOption.ofSpelling?_spelling]

end Arguments

/-! ## Running a command on blocks -/

variable {command : Text} {settings : Log.Settings}

theorem asksForHelp_eq_false_iff {argument : Text} :
    asksForHelp argument = false ↔ argument ≠ "-h" ∧ argument ≠ "--help" := by
  rw [asksForHelp, Bool.or_eq_false_iff, beq_eq_false_iff_ne, beq_eq_false_iff_ne]

/-- Without a call for help the command is run on what stands behind it. -/
theorem run_cons (hcommand : command ≠ "help") {rest : List Text}
    (hhelp : ∀ argument ∈ command :: rest, argument ≠ "-h" ∧ argument ≠ "--help") :
    run (command :: rest) settings = runCommand command rest settings := by
  have hnone : (command :: rest).any asksForHelp = false := by
    rw [List.any_eq_false]
    intro argument hargument
    exact Bool.eq_false_iff.mp (asksForHelp_eq_false_iff.mpr (hhelp argument hargument))
  rw [run, hnone, beq_eq_false_iff_ne.mpr hcommand]
  rfl

theorem spelling_ne_help (option : ValuedOption) :
    option.spelling ≠ "-h" ∧ option.spelling ≠ "--help" := by
  cases option <;> decide

/-- Blocks with the same positional arguments and the same names in the last value of either
option are read as the same. -/
theorem collected_congr {blocks others : List Block}
    (hpositionals : positionals others = positionals blocks)
    (hnames : ∀ option, lastNames option others = lastNames option blocks) :
    collected others = collected blocks := by
  rw [collected, hpositionals, hnames, hnames, collected]

/-- What a command does depends on the positional arguments in their order and on the names in
the last value of either option, and not on where the options stand, what they were before or
how the names are padded. An option that lacks its value at the end is reported, whatever the
command is and whatever stands before. -/
theorem options_stand_anywhere (blocks : List Block) (hcommand : command ≠ "help")
    (hhelp : ∀ argument ∈ command :: written blocks, argument ≠ "-h" ∧ argument ≠ "--help")
    (settings : Log.Settings) :
    (∀ others : List Block,
      (∀ argument ∈ command :: written others, argument ≠ "-h" ∧ argument ≠ "--help") →
        positionals others = positionals blocks →
        (∀ option, lastNames option others = lastNames option blocks) →
          run (command :: written others) settings = run (command :: written blocks) settings) ∧
      ∀ option : ValuedOption,
        run (command :: (written blocks ++ [option.spelling])) settings =
          ([], ⟨1, [(.diagnosis, "Error: Missing value for " ++ option.spelling)]⟩) := by
  apply And.intro
  · intro others hothers hpositionals hnames
    have hread : Arguments.read (written others) = Arguments.read (written blocks) := by
      rw [Arguments.read_written, Arguments.read_written, collected_congr hpositionals hnames]
    rw [run_cons hcommand hothers, run_cons hcommand hhelp, runCommand, runCommand, hread]
  · intro option
    have hnone : ∀ argument ∈ command :: (written blocks ++ [option.spelling]),
        argument ≠ "-h" ∧ argument ≠ "--help" := by
      rw [← List.cons_append, List.forall_mem_append, List.forall_mem_singleton]
      exact ⟨hhelp, spelling_ne_help option⟩
    rw [run_cons hcommand hnone, runCommand, Arguments.read_written_append]
    rfl

/-- The variables are given twice, the first time as the spelling of an option, and the middle
term is padded: the same is inferred as with both options behind the equation. -/
theorem options_stand_anywhere_padded :
    run ["infer", "--vars", "--vars", "y = xy", "--eliminate", " y ,", "--vars", "x,y"] .off =
        run ["infer", "y = xy", "--eliminate", "y", "--vars", "x,y"] .off ∧
      run ["infer", "y = xy", "--eliminate", "y", "--vars", "x,y", "--vars"] .off =
        ([], ⟨1, [(.diagnosis, "Error: Missing value for --vars")]⟩) := by
  have hplain : ∀ option : ValuedOption, Text.ofString "y = xy" ≠ option.spelling := by
    intro option
    cases option <;> decide
  have hcommand : Text.ofString "infer" ≠ "help" := by decide
  have hbehind : ∀ argument ∈ (["infer", "y = xy", "--eliminate", "y", "--vars", "x,y"] :
      List Text), argument ≠ "-h" ∧ argument ≠ "--help" := by decide
  have hbetween : ∀ argument ∈ (["infer", "--vars", "--vars", "y = xy", "--eliminate", " y ,",
      "--vars", "x,y"] : List Text), argument ≠ "-h" ∧ argument ≠ "--help" := by decide
  obtain ⟨hsame, hmissing⟩ := options_stand_anywhere
    [.positional _ hplain, .valued .eliminate "y", .valued .scope "x,y"] hcommand hbehind .off
  refine ⟨hsame [.valued .scope "--vars", .positional _ hplain, .valued .eliminate " y ,",
    .valued .scope "x,y"] hbetween rfl ?_, hmissing .scope⟩
  intro option
  cases option <;> cbv

end ElectiveCalculus.CommandLine
