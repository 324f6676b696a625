import Ramify.Proofs.Csv.Unambiguous
import Ramify.Proofs.Translation

/-!
# The phases of a table

If the delimiter, the quote and the line characters of a dialect differ, its grammar is that
of the default dialect up to a translation of the characters, which takes every character
without a part in the structure of a table to the letter a.

Whatever the text is, the branches of its parse have one of finitely many lists of shapes:
those after a short text in the default dialect.  A `Phase` names such a text.  The next
character leads from phase to phase (`Phase.next`), which is seen by parsing each of the
short texts and one character more.
-/

namespace Ramify.Csv

/-! ## Phases -/

/-- Where a table stands.  A cell is the first of its record or a further one. -/
inductive Phase where
  /-- Nothing has been read. -/
  | start
  /-- A line has ended. -/
  | line
  /-- A delimiter ends a cell. -/
  | delimited
  /-- In a bare cell. -/
  | bare (further : Bool)
  /-- After the quote that opens a cell. -/
  | opened (further : Bool)
  /-- Between quotes. -/
  | quoted (further : Bool)
  /-- After a quote that closes a cell or is the first of two. -/
  | closing (further : Bool)
  /-- A carriage return has been read. -/
  | return
  /-- No table begins like this. -/
  | dead
  deriving DecidableEq

namespace Phase

/-- A text of the default dialect in a phase. -/
def sample : Phase → List Char
  | start => []
  | line => ['\n']
  | delimited => [',']
  | bare further => before further ++ ['a']
  | opened further => before further ++ ['\x22']
  | quoted further => before further ++ ['\x22', 'a']
  | closing further => before further ++ ['\x22', '\x22']
  | «return» => ['\r']
  | dead => ['a', '\x22']
where
  /-- What stands before a cell. -/
  before (further : Bool) : List Char := if further then [','] else []

/-- The frames below those of a cell: its record, and the loop over records. -/
def around (further : Bool) : List Slot :=
  [if further then ⟨17, 1⟩ else ⟨18, 0⟩, ⟨19, 0⟩, ⟨23, 0⟩, ⟨25, 1⟩]

/-- The shapes of the branches in a phase. -/
def shapes : Phase → List Shape
  | start => [⟨some 25, []⟩]
  | line => [⟨none, [⟨25, 1⟩]⟩]
  | delimited => [⟨none, ⟨16, 0⟩ :: around true⟩]
  | bare further => [⟨none, ⟨2, 1⟩ :: ⟨12, 0⟩ :: around further⟩]
  | opened further => [⟨none, ⟨10, 0⟩ :: ⟨12, 0⟩ :: around further⟩]
  | quoted further => [⟨none, ⟨8, 1⟩ :: ⟨10, 1⟩ :: ⟨12, 0⟩ :: around further⟩]
  | closing further =>
    [⟨none, ⟨6, 1⟩ :: ⟨8, 1⟩ :: ⟨10, 1⟩ :: ⟨12, 0⟩ :: around further⟩,
      ⟨none, ⟨12, 0⟩ :: around further⟩]
  | «return» => [⟨none, [⟨21, 1⟩, ⟨25, 1⟩]⟩]
  | dead => []

/-- There are never more than two branches. -/
theorem length_shapes_le (phase : Phase) : phase.shapes.length ≤ 2 := by
  cases phase with
  | closing => exact Nat.le_refl 2
  | start | line | delimited | bare | opened | quoted | «return» => exact Nat.le_succ 1
  | dead => exact Nat.zero_le 2

theorem shapes_eq_nil_iff {phase : Phase} : phase.shapes = [] ↔ phase = dead := by
  cases phase with
  | start | line | delimited | bare | opened | quoted | closing | «return» | dead => simp [shapes]

/-- The phase after a character that ends a cell. -/
def afterCell (c : Char) : Phase :=
  if c = ',' then delimited else if c = '\n' then line else if c = '\r' then «return» else dead

/-- The phase after a character in a bare cell. -/
def inBare (further : Bool) (c : Char) : Phase :=
  if c ∈ [',', '\n', '\r'] then afterCell c else if c = '\x22' then dead else bare further

/-- The phase after the first character of a cell. -/
def atCell (further : Bool) (c : Char) : Phase :=
  if c = '\x22' then opened further else inBare further c

/-- The phase after one more character of the default dialect. -/
def next : Phase → Char → Phase
  | start, c | line, c => atCell false c
  | delimited, c => atCell true c
  | bare further, c => inBare further c
  | opened further, c | quoted further, c => if c = '\x22' then closing further else quoted further
  | closing further, c => if c = '\x22' then quoted further else afterCell c
  | «return», c => if c = '\n' then line else dead
  | dead, _ => dead

/-- The characters of the default dialect that differ in what they lead to. -/
def alphabet : List Char := [',', '\x22', '\n', '\r', 'a']

/-- The parse of the sample of a phase. -/
def parse (phase : Phase) : Forest Char Token :=
  ((Forest.new (Dialect.table {}) .unlimited).takeAll phase.sample).forest

/-- What is known of a phase once the parse of its sample has been run. -/
structure Witnessed (phase : Phase) : Prop where
  /-- The sample is taken. -/
  taken : ((Forest.new (Dialect.table {}) .unlimited).takeAll phase.sample).result = .ok ()
  /-- It leaves the shapes of the phase. -/
  shapes_eq : phase.parse.shapes = phase.shapes
  /-- Every character leaves those of the next phase. -/
  shapes_next : ∀ c ∈ alphabet, (phase.parse.take c).forest.shapes = (phase.next c).shapes

/-- What is tested of each character of the alphabet, and not of all characters, holds of it. -/
theorem forall_alphabet {P : Char → Prop} [DecidablePred P]
    (h : alphabet.all (fun c => decide (P c)) = true) : ∀ c ∈ alphabet, P c := by
  simpa using h

theorem witnessed (phase : Phase) : phase.Witnessed := by
  cases phase with
  | start | line | delimited | «return» | dead =>
      exact ⟨by decide +kernel, by decide +kernel, forall_alphabet (by decide +kernel)⟩
  | bare further | opened further | quoted further | closing further =>
      cases further with
      | false =>
          exact ⟨by decide +kernel, by decide +kernel, forall_alphabet (by decide +kernel)⟩
      | true =>
          exact ⟨by decide +kernel, by decide +kernel, forall_alphabet (by decide +kernel)⟩

theorem parse_free (phase : Phase) : phase.parse.Free :=
  ((Forest.Free.new (Dialect.table_isBuilt {})).takeAll_of_ok phase.witnessed.taken).1

theorem parse_grammar (phase : Phase) : phase.parse.grammar = Dialect.table {} :=
  (Forest.Reachable.new.takeAll phase.sample).grammar_eq.1

/-- The sample of a phase is short. -/
theorem parse_consumed_lt (phase : Phase) : phase.parse.consumed < maxCount := by
  have hnew := Forest.Free.new (Dialect.table_isBuilt {})
  have hcount := (hnew.takeAll_of_ok phase.witnessed.taken).2.1
  have hlength : 0 + phase.sample.length < maxCount := by
    cases phase with
    | start | line | delimited | «return» | dead => decide
    | bare further | opened further | quoted further | closing further =>
        cases further with
        | false => decide
        | true => decide
  rw [parse, hcount]
  exact hlength

theorem shapes_advanced (phase : Phase) {c : Char} (hc : c ∈ alphabet) :
    (phase.parse.advanced c).shapes = (phase.next c).shapes := by
  rw [← phase.witnessed.shapes_next c hc, (phase.parse_free.take phase.parse_consumed_lt c).2]

end Phase

/-! ## Translating a dialect -/

namespace Dialect

variable {dialect : Dialect}

/-- The character of the default dialect that plays the part of a character. -/
def translate (dialect : Dialect) (c : Char) : Char :=
  if c = dialect.quote then '\x22'
  else if c = dialect.delimiter then ','
  else if c = '\n' ∨ c = '\r' then c
  else 'a'

theorem translate_mem (dialect : Dialect) (c : Char) : dialect.translate c ∈ Phase.alphabet := by
  unfold translate
  split_ifs with hquote hdelimiter hline
  · decide
  · decide
  · rcases hline with rfl | rfl
    · decide
    · decide
  · decide

theorem isSourceOf_quote (dialect : Dialect) :
    IsSourceOf dialect.translate dialect.quote '\x22' := by
  intro c
  unfold translate
  split_ifs with hquote hdelimiter hline
  · simp [hquote]
  · simp [hquote]
  · rcases hline with rfl | rfl
    · simp [hquote]
    · simp [hquote]
  · simp [hquote]

theorem Distinct.isSourceOf_delimiter (hd : dialect.Distinct) :
    IsSourceOf dialect.translate dialect.delimiter ',' := by
  intro c
  have hne : dialect.quote ≠ dialect.delimiter := fun h =>
    hd.quote_notMem (h ▸ List.mem_cons_self)
  unfold translate
  split_ifs with hquote hdelimiter hline
  · simp [hquote, hne]
  · simp [hdelimiter]
  · rcases hline with rfl | rfl
    · simp [hdelimiter]
    · simp [hdelimiter]
  · simp [hdelimiter]

theorem Distinct.isSourceOf_line (hd : dialect.Distinct) {d : Char} (hmem : d ∈ ['\r', '\n']) :
    IsSourceOf dialect.translate d d := by
  intro c
  have hquote : dialect.quote ≠ d := fun h =>
    hd.quote_notMem (h ▸ List.mem_cons_of_mem _ hmem)
  have hdelimiter : dialect.delimiter ≠ d := fun h => hd.delimiter_notMem (h ▸ hmem)
  have hothers : ∀ e ∈ ['\r', '\n'], e ≠ '\x22' ∧ e ≠ ',' ∧ e ≠ 'a' := by simp
  have hother := hothers d hmem
  unfold translate
  split_ifs with hc hc' hline
  · simp [hc, hquote, hother.1.symm]
  · simp [hc', hdelimiter, hother.2.1.symm]
  · exact Iff.rfl
  · have hne : c ≠ d := by
      rintro rfl
      simp only [List.mem_cons, List.not_mem_nil, or_false] at hmem
      exact hline hmem.symm
    simp [hne, hother.2.2.symm]

/-- The grammar of a dialect is that of the default dialect up to the translation. -/
theorem Distinct.table_translated (hd : dialect.Distinct) :
    dialect.table.Translated dialect.translate (table {}) where
  nodes id := by
    have hnodes : List.Forall₂ (Node.Translated dialect.translate) dialect.nodes.toList
        (nodes {}).toList := by
      have hquote := dialect.isSourceOf_quote
      have hdelimiter := hd.isSourceOf_delimiter
      have hreturn : IsSourceOf dialect.translate '\r' '\r' := hd.isSourceOf_line (by decide)
      have hfeed : IsSourceOf dialect.translate '\n' '\n' := hd.isSourceOf_line (by decide)
      have hquotes := List.Forall₂.cons hquote .nil
      have hbare := List.Forall₂.cons hdelimiter (.cons hquote (.cons hreturn (.cons hfeed .nil)))
      exact .cons (.guard_listed hquotes true) <| .cons (.oneOf_listed hbare true) <|
        .cons (.star 1) <| .cons (.seq _) <| .cons (.oneOf_listed hquotes false) <|
        .cons (.oneOf_listed hquotes true) <|
        .cons (.literal_listed (.cons hquote hquotes)) <|
        .cons (.alt _) <| .cons (.star 7) <| .cons (.oneOf_listed hquotes false) <|
        .cons (.seq _) <| .cons (.alt _) <| .cons (.ofSymbols 11 _ _) <| .cons (.rule 0) <|
        .cons (.oneOf_listed (.cons hdelimiter .nil) false) <| .cons (.rule 0) <|
        .cons (.seq _) <| .cons (.star 16) <| .cons (.seq _) <| .cons (.fold 18 _ _) <|
        .cons (.oneOf_listed (.cons hfeed .nil) false) <|
        .cons (.literal_listed (.cons hreturn (.cons hfeed .nil))) <| .cons (.alt _) <|
        .cons (.seq _) <| .cons (.rule 1) <| .cons (.star 24) .nil
    have hrel := rel_getElem? hnodes id
    rwa [Array.getElem?_toList, Array.getElem?_toList] at hrel
  bodies _ := rfl
  start := rfl

/-! ## The phase of a text -/

/-- The phase of a text. -/
def phase (dialect : Dialect) (text : List Char) : Phase :=
  (text.map dialect.translate).foldl Phase.next .start

@[simp] theorem phase_append_singleton (dialect : Dialect) (text : List Char) (c : Char) :
    dialect.phase (text ++ [c]) = (dialect.phase text).next (dialect.translate c) := by
  simp [phase]

section Parses

variable {f : Forest Char Token}

/-- A parse whose branches have the shapes of a phase can be compared with that of its sample. -/
theorem Distinct.translated_parse (hd : dialect.Distinct) (hgrammar : f.grammar = dialect.table)
    (phase : Phase) : f.grammar.Translated dialect.translate phase.parse.grammar := by
  rw [hgrammar, phase.parse_grammar]
  exact hd.table_translated

/-- A character leads from the shapes of a phase to those of the next. -/
theorem Distinct.shapes_advanced (hd : dialect.Distinct) {phase : Phase} (hf : f.Free)
    (hgrammar : f.grammar = dialect.table) (hshapes : f.shapes = phase.shapes) (c : Char) :
    (f.advanced c).shapes = (phase.next (dialect.translate c)).shapes := by
  rw [← phase.witnessed.shapes_eq] at hshapes
  rw [Forest.shapes_advanced (hd.translated_parse hgrammar phase) hf phase.parse_free hshapes,
    phase.shapes_advanced (dialect.translate_mem c)]

/-- The branches of a parse have the shapes of the phase that its text has led to. -/
theorem Distinct.shapes_takeAll (hd : dialect.Distinct) {phase : Phase} {text : List Char}
    (hf : f.Free) (hgrammar : f.grammar = dialect.table) (hshapes : f.shapes = phase.shapes)
    (hok : (f.takeAll text).result = .ok ()) :
    (f.takeAll text).forest.shapes =
      ((text.map dialect.translate).foldl Phase.next phase).shapes := by
  induction text generalizing f phase with
  | nil => exact hshapes
  | cons c cs ih =>
      obtain ⟨hfirst, hrest⟩ := Forest.takeAll_cons_eq_ok hok
      rw [(Forest.take_eq_ok hfirst).2] at hrest
      rw [(Forest.takeAll_cons hfirst).2, (Forest.take_eq_ok hfirst).2]
      exact ih (hf.advanced c) hgrammar (hd.shapes_advanced hf hgrammar hshapes c) hrest

theorem Distinct.shapes_eq (hd : dialect.Distinct) {text : List Char}
    (hok : ((Forest.new dialect.table .unlimited).takeAll text).result = .ok ()) :
    ((Forest.new dialect.table .unlimited).takeAll text).forest.shapes =
      (dialect.phase text).shapes :=
  hd.shapes_takeAll (.new dialect.table_isBuilt) rfl rfl hok

end Parses

end Dialect

end Ramify.Csv
