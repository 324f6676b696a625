import Ramify.Stack.Program

/-!
# Words and the programs they spell

`Reads words program` is the meaning of a row of words whose brackets match: every word that
is no bracket is an instruction, and a quotation is the program of the words between its
brackets.

A program can also be read word by word.  `Nesting` is what has been read: the instructions
of the innermost quotation that is still open, and those of the quotations around it.  Only a
closing bracket without an open quotation cannot be read (`Nesting.read_eq_none_iff`), and
reading word by word gives a program just if the words spell it
(`Nesting.readAll_eq_some_iff`).
-/

namespace Ramify.Stack

/-- The instruction of a word that is no bracket. -/
def Word.instruction? : Word → Option Instruction
  | .op o => some (.op o)
  | .int value => some (.push value)
  | .name text => some (.word text)
  | .opening | .closing => none

/-- The program that words spell. -/
inductive Reads : List Word → List Instruction → Prop where
  /-- The empty program. -/
  | nil : Reads [] []
  /-- A word that is no bracket. -/
  | word {word : Word} {instruction : Instruction} {words : List Word}
      {program : List Instruction} (hi : word.instruction? = some instruction)
      (hrest : Reads words program) : Reads (word :: words) (instruction :: program)
  /-- A quotation. -/
  | quote {inner words : List Word} {body program : List Instruction} (hbody : Reads inner body)
      (hrest : Reads words program) :
      Reads (.opening :: inner ++ .closing :: words) (.quote body :: program)

namespace Reads

variable {words words' inner : List Word} {program program' body : List Instruction}

theorem append (h : Reads words program) (h' : Reads words' program') :
    Reads (words ++ words') (program ++ program') := by
  induction h with
  | nil => exact h'
  | word hi _ ih => exact .word hi ih
  | quote hbody _ _ ih => simpa using Reads.quote hbody ih

theorem single {word : Word} {instruction : Instruction}
    (h : word.instruction? = some instruction) : Reads [word] [instruction] :=
  .word h .nil

theorem quotation (h : Reads inner body) :
    Reads (.opening :: inner ++ [.closing]) [.quote body] :=
  .quote h .nil

end Reads

/-! ## Unmatched brackets -/

/-- The number of open quotations after one more word. -/
def Word.deepen (depth : Nat) : Word → Nat
  | .opening => depth + 1
  | .closing => depth - 1
  | _ => depth

/-- The number of opening brackets that no closing bracket matches. -/
def unmatched (words : List Word) : Nat :=
  words.foldl Word.deepen 0

/-! ## Reading word by word -/

/-- What has been read of a program. -/
structure Nesting where
  /-- The instructions of the innermost open quotation, or of the program. -/
  level : List Instruction
  /-- The instructions of what is around it, from the inside out. -/
  outers : List (List Instruction)

namespace Nesting

/-- Nothing has been read. -/
def new : Nesting := ⟨[], []⟩

/-- All instructions, those of open quotations included, in the order of their words. -/
def spread (n : Nesting) : List Instruction :=
  n.outers.reverse.flatten ++ n.level

/-- Adds an instruction to the innermost quotation. -/
def add (n : Nesting) (instruction : Instruction) : Nesting :=
  { n with level := n.level ++ [instruction] }

/-- Opens a quotation. -/
def enter (n : Nesting) : Nesting := ⟨[], n.level :: n.outers⟩

@[simp] theorem spread_add (n : Nesting) (instruction : Instruction) :
    (n.add instruction).spread = n.spread ++ [instruction] := by
  simp [spread, add]

@[simp] theorem spread_enter (n : Nesting) : n.enter.spread = n.spread := by
  simp [spread, enter]

/-- The instructions of the innermost quotation come last. -/
theorem spread_inside (level outer : List Instruction) (outers : List (List Instruction)) :
    (Nesting.mk level (outer :: outers)).spread = (Nesting.mk outer outers).spread ++ level := by
  simp [spread]

/-- Reads a word. -/
def read (n : Nesting) (word : Word) : Option Nesting :=
  match word with
  | .opening => some n.enter
  | .closing =>
    match n.outers with
    | [] => none
    | outer :: outers => some (Nesting.add ⟨outer, outers⟩ (.quote n.level))
  | word => word.instruction?.map n.add

/-- Reads words. -/
def readAll (n : Nesting) (words : List Word) : Option Nesting :=
  words.foldlM read n

variable {n n' : Nesting} {word : Word} {words words' : List Word} {program : List Instruction}

theorem read_of_instruction {instruction : Instruction}
    (h : word.instruction? = some instruction) : n.read word = some (n.add instruction) := by
  cases word with
  | op | int | name =>
      cases h
      rfl
  | opening | closing => cases h

/-- Every word can be read but a closing bracket outside of every quotation. -/
theorem read_eq_none_iff : n.read word = none ↔ word = .closing ∧ n.outers = [] := by
  cases word with
  | op | int | name | opening => simp [read, Word.instruction?]
  | closing =>
      cases ho : n.outers with
      | nil => simp [read, ho]
      | cons => simp [read, ho]

theorem length_read (h : n.read word = some n') :
    n'.outers.length = word.deepen n.outers.length := by
  cases word with
  | op | int | name | opening =>
      cases h
      rfl
  | closing =>
      cases ho : n.outers with
      | nil => simp [read, ho] at h
      | cons outer outers =>
          simp only [read, ho, Option.some.injEq] at h
          rw [← h]
          rfl

theorem readAll_cons : n.readAll (word :: words) = (n.read word).bind (readAll · words) :=
  List.foldlM_cons

theorem readAll_append : n.readAll (words ++ words') = (n.readAll words).bind (readAll · words') :=
  List.foldlM_append

/-- As many quotations are open as brackets are unmatched. -/
theorem length_readAll (h : n.readAll words = some n') :
    n'.outers.length = words.foldl Word.deepen n.outers.length := by
  induction words generalizing n with
  | nil =>
      cases h
      rfl
  | cons word words ih =>
      rw [readAll_cons] at h
      obtain ⟨next, hread, hrest⟩ := Option.bind_eq_some_iff.mp h
      rw [ih hrest, length_read hread, List.foldl_cons]

theorem outers_eq_nil_iff (h : new.readAll words = some n) :
    n.outers = [] ↔ unmatched words = 0 := by
  rw [← List.length_eq_zero_iff, length_readAll h]
  exact Iff.rfl

/-- Words that spell a program are read as its instructions. -/
theorem readAll_of_reads (h : Reads words program) :
    n.readAll words = some ⟨n.level ++ program, n.outers⟩ := by
  induction h generalizing n with
  | nil =>
      rw [List.append_nil]
      rfl
  | word hi _ ih =>
      rw [readAll_cons, read_of_instruction hi, Option.bind_some, ih]
      simp [add]
  | quote _ _ ihbody ih =>
      rw [List.cons_append, readAll_cons]
      show (some n.enter).bind _ = _
      rw [Option.bind_some, readAll_append, ihbody, Option.bind_some, readAll_cons]
      simp [enter, read, add, ih]

/-- Words that spell what was read: those before the open quotations, and those inside. -/
inductive Spells : List Word → Nesting → Prop where
  /-- No quotation is open. -/
  | top {words : List Word} {program : List Instruction} (h : Reads words program) :
      Spells words ⟨program, []⟩
  /-- A quotation is open. -/
  | inside {words inner : List Word} {n : Nesting} {body : List Instruction} (h : Spells words n)
      (hbody : Reads inner body) :
      Spells (words ++ .opening :: inner) ⟨body, n.level :: n.outers⟩

/-- A row of words can be followed by one whose brackets match. -/
theorem Spells.append (h : Spells words n) (h' : Reads words' program) :
    Spells (words ++ words') ⟨n.level ++ program, n.outers⟩ := by
  cases h with
  | top h => exact .top (h.append h')
  | inside h hbody => simpa using Spells.inside h (hbody.append h')

theorem Spells.read (h : Spells words n) (hread : n.read word = some n') :
    Spells (words ++ [word]) n' := by
  cases word with
  | opening =>
      cases hread
      exact .inside h .nil
  | closing =>
      cases h with
      | top => cases hread
      | inside h hbody =>
          cases hread
          simpa [add] using h.append hbody.quotation
  | op | int | name =>
      cases hread
      exact h.append (.single rfl)

theorem Spells.readAll (h : Spells words n) (hread : n.readAll words' = some n') :
    Spells (words ++ words') n' := by
  induction words' generalizing words n with
  | nil =>
      cases hread
      simpa using h
  | cons word words' ih =>
      rw [readAll_cons] at hread
      obtain ⟨next, hword, hrest⟩ := Option.bind_eq_some_iff.mp hread
      simpa using ih (h.read hword) hrest

/-- Words are read as a program just if they spell it. -/
theorem readAll_eq_some_iff : new.readAll words = some ⟨program, []⟩ ↔ Reads words program := by
  constructor
  · intro h
    have hspells := (Spells.top .nil).readAll h
    cases hspells with
    | top h => exact h
  · exact readAll_of_reads

end Nesting

end Ramify.Stack
