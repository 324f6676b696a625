import Mathlib.Data.List.TakeWhile
import Mathlib.Tactic.SplitIfs
import Ramify.Stack.Item

/-!
# The longest match

`Scan.munch` decides by the first character what a word is, and takes as many of the characters
after it as go on with a word of that kind.  `Matches` says which texts are words, kind by kind
and whatever follows them, and `Lexeme` adds what is skipped.  No lexeme goes on with a character
that its first one does not allow (`goesOn`), so one that nothing goes on with is the longest at
its place (`Lexeme.longest`).

`munch` takes the longest lexeme, and finds a fault just where no lexeme begins
(`munch_longest`).  Only blanks it skips one by one.
-/

namespace Ramify.Stack.Scan

/-! ## Classes of characters -/

section Classes

variable {c : Char}

theorem isBlank_iff :
    isBlank c = true ↔ c.toNat = 32 ∨ c.toNat = 9 ∨ c.toNat = 13 ∨ c.toNat = 10 := by
  simp [isBlank, ← Char.toNat_inj, or_assoc]

theorem isDigit_iff : c.isDigit = true ↔ 48 ≤ c.toNat ∧ c.toNat ≤ 57 := by
  simp [Char.isDigit, UInt32.le_iff_toNat_le]

theorem isUpper_iff : c.isUpper = true ↔ 65 ≤ c.toNat ∧ c.toNat ≤ 90 :=
  decide_eq_true_iff

theorem isLower_iff : c.isLower = true ↔ 97 ≤ c.toNat ∧ c.toNat ≤ 122 := by
  show (_ && _) = true ↔ _
  rw [Bool.and_eq_true, decide_eq_true_iff, decide_eq_true_iff]
  exact Iff.rfl

theorem isNameStart_iff :
    isNameStart c = true ↔
      65 ≤ c.toNat ∧ c.toNat ≤ 90 ∨ 97 ≤ c.toNat ∧ c.toNat ≤ 122 ∨ c.toNat = 95 := by
  have hletter : c.isAlpha = true ↔ c.isUpper = true ∨ c.isLower = true := Bool.or_eq_true_iff
  simp [isNameStart, hletter, isUpper_iff, isLower_iff, ← Char.toNat_inj, or_assoc]

theorem isNamePart_iff :
    isNamePart c = true ↔ isNameStart c = true ∨ c.isDigit = true ∨
      c.toNat = 45 ∨ c.toNat = 63 ∨ c.toNat = 33 := by
  simp [isNamePart, isNameStart, Char.isAlphanum, ← Char.toNat_inj]
  grind

/-- Blanks and the number sign come before all digits and letters. -/
theorem not_skipped (h : 48 ≤ c.toNat) : ¬ isBlank c = true ∧ c ≠ '#' := by
  rw [isBlank_iff, Ne, ← Char.toNat_inj]
  have : '#'.toNat = 35 := rfl
  omega

theorem not_skipped_of_isNameStart (hc : isNameStart c = true) :
    ¬ isBlank c = true ∧ c ≠ '#' := by
  have hcode := isNameStart_iff.mp hc
  exact not_skipped (by omega)

theorem not_isNameStart_of_isDigit (hc : c.isDigit = true) :
    ¬ isBlank c = true ∧ c ≠ '#' ∧ ¬ isNameStart c = true := by
  have hcode := isDigit_iff.mp hc
  obtain ⟨hblank, hcomment⟩ := not_skipped hcode.1
  refine ⟨hblank, hcomment, ?_⟩
  rw [isNameStart_iff]
  omega

end Classes

/-! ## What is read at a place -/

theorem munch_blank {c : Char} (h : isBlank c = true) (cs : List Char) :
    munch c cs = { more := 0, skipped := true } :=
  if_pos h

theorem munch_comment (cs : List Char) :
    munch '#' cs = { more := (cs.takeWhile (· ≠ '\n')).length, skipped := true } :=
  rfl

theorem munch_of_isNameStart {c : Char} (hc : isNameStart c = true) (cs : List Char) :
    munch c cs = { more := (cs.takeWhile isNamePart).length,
                   word := some (nameWord (String.ofList (c :: cs.takeWhile isNamePart))) } := by
  obtain ⟨hblank, hcomment⟩ := not_skipped_of_isNameStart hc
  rw [munch, if_neg hblank, if_neg hcomment, if_pos hc]

theorem munch_of_isDigit {c : Char} (hc : c.isDigit = true) (cs : List Char) :
    munch c cs = { more := (cs.takeWhile Char.isDigit).length,
                   word := fitting (digitsValue (c :: cs.takeWhile Char.isDigit)) } := by
  obtain ⟨hblank, hcomment, hname⟩ := not_isNameStart_of_isDigit hc
  rw [munch, if_neg hblank, if_neg hcomment, if_neg hname, if_pos hc]

/-- A minus is the sign of the digits after it, or the subtraction if there are none. -/
theorem munch_minus (cs : List Char) :
    munch '-' cs = { more := (cs.takeWhile Char.isDigit).length,
                     word := if cs.takeWhile Char.isDigit = [] then some (.op .sub)
                       else fitting (-digitsValue (cs.takeWhile Char.isDigit)) } := by
  show (if (cs.takeWhile Char.isDigit).isEmpty then _ else _) = _
  cases cs.takeWhile Char.isDigit with
  | nil => rfl
  | cons => rfl

/-- Characters that are words by themselves, whatever follows them. -/
def symbols : List Char := ['[', ']', '+', '*', '/', '=', '<', '.']

theorem munch_symbol {c : Char} (hc : c ∈ symbols) (cs : List Char) :
    munch c cs = { more := 0, word := symbolWord? c } ∧ symbolWord? c ≠ none := by
  simp only [symbols, List.mem_cons, List.not_mem_nil, or_false] at hc
  rcases hc with rfl | rfl | rfl | rfl | rfl | rfl | rfl | rfl
  all_goals exact ⟨rfl, by decide⟩

/-! ## What goes on -/

/-- Whether a character may stand behind the first one of what is read as one. -/
def goesOn (c : Char) : Char → Bool :=
  if isBlank c then isBlank
  else if c = '#' then (· ≠ '\n')
  else if isNameStart c then isNamePart
  else if c.isDigit || c = '-' then Char.isDigit
  else fun _ => false

section GoesOn

variable {c : Char}

theorem goesOn_of_isBlank (hc : isBlank c = true) : goesOn c = isBlank :=
  if_pos hc

theorem goesOn_of_isNameStart (hc : isNameStart c = true) : goesOn c = isNamePart := by
  obtain ⟨hblank, hcomment⟩ := not_skipped_of_isNameStart hc
  rw [goesOn, if_neg hblank, if_neg hcomment, if_pos hc]

theorem goesOn_of_isDigit (hc : c.isDigit = true) : goesOn c = Char.isDigit := by
  obtain ⟨hblank, hcomment, hname⟩ := not_isNameStart_of_isDigit hc
  rw [goesOn, if_neg hblank, if_neg hcomment, if_neg hname, hc]
  rfl

/-- What goes on with a word goes on with a name. -/
theorem isNamePart_of_goesOn (hblank : isBlank c = false) (hcomment : c ≠ '#') {d : Char}
    (h : goesOn c d = true) : isNamePart d = true := by
  rw [goesOn, hblank, if_neg Bool.false_ne_true, if_neg hcomment] at h
  split at h
  · exact h
  · split at h
    · exact isNamePart_iff.mpr (.inr (.inl h))
    · cases h

end GoesOn

/-! ## Operations -/

/-- An operation is a row of letters, or the minus, or a symbol. -/
theorem spelling_cases (o : Op) :
    (∃ c cs, o.spelling.toList = c :: cs ∧ isNameStart c = true ∧
      ∀ d ∈ cs, isNamePart d = true) ∨
    o = .sub ∨ ∃ c ∈ symbols, o.spelling.toList = [c] ∧ symbolWord? c = some (.op o) := by
  have hletters : ∀ {c : Char} {cs : List Char}, o.spelling.toList = c :: cs →
      isNameStart c = true → cs.all isNamePart = true →
      ∃ c cs, o.spelling.toList = c :: cs ∧ isNameStart c = true ∧
        ∀ d ∈ cs, isNamePart d = true := fun htext hc hcs =>
    ⟨_, _, htext, hc, List.all_eq_true.mp hcs⟩
  cases o with
  | add | mul | div | eq | lt | print => exact .inr (.inr ⟨_, by decide, rfl, rfl⟩)
  | sub => exact .inr (.inl rfl)
  | _ => exact .inl (hletters rfl (by decide) (by decide))

theorem nameWord_spelling (o : Op) : nameWord o.spelling = .op o := by
  cases o <;> decide

theorem op?_eq_some {text : String} {o : Op} (h : op? text = some o) : o.spelling = text := by
  simpa using List.find?_some h

theorem op?_eq_none_iff {text : String} : op? text = none ↔ ∀ o : Op, o.spelling ≠ text := by
  constructor
  · intro h o
    have hnone := List.find?_eq_none.mp h o (by cases o <;> decide)
    simpa using hnone
  · intro h
    simp [op?, h]

/-! ## The longest word -/

/-- The texts that are words, each with its word: brackets and operations as they are spelled,
integers with any zeros in front, and names.  A text that spells an operation is no name, and an
integer is none if it does not fit. -/
inductive Matches : List Char → Option Word → Prop
  /-- Begins a quotation. -/
  | opening : Matches ['['] (some .opening)
  /-- Ends a quotation. -/
  | closing : Matches [']'] (some .closing)
  /-- An operation. -/
  | op (o : Op) : Matches o.spelling.toList (some (.op o))
  /-- An integer without a sign. -/
  | digits {c : Char} {cs : List Char} : c.isDigit = true → (∀ d ∈ cs, d.isDigit = true) →
    Matches (c :: cs) (fitting (digitsValue (c :: cs)))
  /-- An integer with a sign. -/
  | minus {c : Char} {cs : List Char} : c.isDigit = true → (∀ d ∈ cs, d.isDigit = true) →
    Matches ('-' :: c :: cs) (fitting (-digitsValue (c :: cs)))
  /-- A name. -/
  | name {c : Char} {cs : List Char} : isNameStart c = true → (∀ d ∈ cs, isNamePart d = true) →
    (∀ o : Op, o.spelling ≠ String.ofList (c :: cs)) →
    Matches (c :: cs) (some (.name (String.ofList (c :: cs))))

/-- A word begins with a letter, a digit, a minus or a symbol, and goes on as that tells. -/
theorem Matches.exists_cons {text : List Char} {word : Option Word} (h : Matches text word) :
    ∃ c cs, text = c :: cs ∧ (isNameStart c = true ∨ c.isDigit = true ∨ c = '-' ∨ c ∈ symbols) ∧
      ∀ d ∈ cs, goesOn c d = true := by
  cases h with
  | opening | closing => exact ⟨_, _, rfl, by decide, by simp⟩
  | op o =>
    rcases spelling_cases o with ⟨c, cs, htext, hc, hcs⟩ | rfl | ⟨c, hc, htext, -⟩
    · exact ⟨c, cs, htext, .inl hc, goesOn_of_isNameStart hc ▸ hcs⟩
    · exact ⟨'-', [], rfl, by decide, by simp⟩
    · exact ⟨c, [], htext, .inr (.inr (.inr hc)), by simp⟩
  | digits hc hcs => exact ⟨_, _, rfl, .inr (.inl hc), goesOn_of_isDigit hc ▸ hcs⟩
  | @minus c cs hc hcs =>
    have hall : ∀ d ∈ c :: cs, d.isDigit = true := by simpa [hc] using hcs
    exact ⟨'-', c :: cs, rfl, .inr (.inr (.inl rfl)), hall⟩
  | name hc hcs => exact ⟨_, _, rfl, .inl hc, goesOn_of_isNameStart hc ▸ hcs⟩

/-- A word does not begin with a blank or a number sign. -/
theorem Matches.not_skipped {c : Char} {cs : List Char} {word : Option Word}
    (h : Matches (c :: cs) word) : isBlank c = false ∧ c ≠ '#' := by
  obtain ⟨c', cs', heq, hhead, -⟩ := h.exists_cons
  cases heq
  rcases hhead with hc | hc | rfl | hc
  · simpa using not_skipped_of_isNameStart hc
  · obtain ⟨hblank, hcomment, -⟩ := not_isNameStart_of_isDigit hc
    exact ⟨Bool.eq_false_iff.mpr hblank, hcomment⟩
  · decide
  · simp only [symbols, List.mem_cons, List.not_mem_nil, or_false] at hc
    rcases hc with rfl | rfl | rfl | rfl | rfl | rfl | rfl | rfl
    all_goals decide

theorem take_length_takeWhile (p : Char → Bool) (cs : List Char) :
    cs.take (cs.takeWhile p).length = cs.takeWhile p :=
  (List.prefix_iff_eq_take.mp (List.takeWhile_prefix p)).symm

theorem matches_nameWord {c : Char} {cs : List Char} (hc : isNameStart c = true)
    (hcs : ∀ d ∈ cs, isNamePart d = true) :
    Matches (c :: cs) (some (nameWord (String.ofList (c :: cs)))) := by
  rw [nameWord]
  cases hop : op? (String.ofList (c :: cs)) with
  | some o =>
    have htext : o.spelling.toList = c :: cs := by rw [op?_eq_some hop, String.toList_ofList]
    exact htext ▸ .op o
  | none => exact .name hc hcs (op?_eq_none_iff.mp hop)

theorem matches_symbolWord? {c : Char} {w : Word} (h : symbolWord? c = some w) :
    Matches [c] (some w) := by
  rw [symbolWord?] at h
  split_ifs at h with hopening hclosing
  · cases h
    exact hopening ▸ .opening
  · cases h
    exact hclosing ▸ .closing
  · obtain ⟨o, hop, rfl⟩ := Option.map_eq_some_iff.mp h
    have htext : o.spelling.toList = [c] := by rw [op?_eq_some hop, String.toList_ofList]
    exact htext ▸ .op o

/-- A word by itself is read as it is. -/
theorem Matches.munch_eq {text : List Char} {word : Option Word} (h : Matches text word) :
    ∃ c cs, text = c :: cs ∧ munch c cs = { more := cs.length, word } := by
  have hname : ∀ {c : Char} {cs : List Char}, isNameStart c = true →
      (∀ d ∈ cs, isNamePart d = true) → munch c cs =
        { more := cs.length, word := some (nameWord (String.ofList (c :: cs))) } := by
    intro c cs hc hcs
    rw [munch_of_isNameStart hc, List.takeWhile_eq_self_iff.mpr hcs]
  cases h with
  | opening | closing => exact ⟨_, [], rfl, rfl⟩
  | op o =>
    rcases spelling_cases o with ⟨c, cs, htext, hc, hcs⟩ | rfl | ⟨c, hc, htext, hword⟩
    · refine ⟨c, cs, htext, ?_⟩
      rw [hname hc hcs, ← htext, String.ofList_toList, nameWord_spelling]
    · exact ⟨'-', [], rfl, rfl⟩
    · refine ⟨c, [], htext, ?_⟩
      rw [(munch_symbol hc _).1, hword]
      rfl
  | @digits c cs hc hcs =>
    refine ⟨c, cs, rfl, ?_⟩
    rw [munch_of_isDigit hc, List.takeWhile_eq_self_iff.mpr hcs]
  | @minus c cs hc hcs =>
    have hall : ∀ d ∈ c :: cs, d.isDigit = true := by simpa [hc] using hcs
    refine ⟨'-', c :: cs, rfl, ?_⟩
    rw [munch_minus, List.takeWhile_eq_self_iff.mpr hall, if_neg (List.cons_ne_nil _ _)]
  | @name c cs hc hcs hop =>
    refine ⟨c, cs, rfl, ?_⟩
    rw [hname hc hcs, nameWord, op?_eq_none_iff.mpr hop]

theorem Matches.unique {text : List Char} {word word' : Option Word} (h : Matches text word)
    (h' : Matches text word') : word = word' := by
  obtain ⟨c, cs, htext, hmunch⟩ := h.munch_eq
  obtain ⟨c', cs', htext', hmunch'⟩ := h'.munch_eq
  cases htext.symm.trans htext'
  exact congrArg Munch.word (hmunch.symm.trans hmunch')

/-! ## Lexemes -/

/-- The texts that are read as one, each with what is read of it: nothing of blanks and comments,
and one word of a text that matches it. -/
inductive Lexeme : List Char → List (Option Word) → Prop
  /-- Blanks in a row. -/
  | blanks {c : Char} {cs : List Char} : isBlank c = true → (∀ d ∈ cs, isBlank d = true) →
    Lexeme (c :: cs) []
  /-- A comment, without the end of its line. -/
  | comment {cs : List Char} : '\n' ∉ cs → Lexeme ('#' :: cs) []
  /-- A word. -/
  | word {text : List Char} {word : Option Word} : Matches text word → Lexeme text [word]

variable {c : Char} {cs text text' rest : List Char} {reading reading' : List (Option Word)}

theorem Lexeme.exists_cons (h : Lexeme text reading) :
    ∃ c cs, text = c :: cs ∧ ∀ d ∈ cs, goesOn c d = true := by
  cases h with
  | blanks hc hcs => exact ⟨_, _, rfl, goesOn_of_isBlank hc ▸ hcs⟩
  | @comment cs hcs =>
    have hne : ∀ d ∈ cs, d ≠ '\n' := fun d hd hline => hcs (hline ▸ hd)
    exact ⟨'#', cs, rfl, fun d hd => decide_eq_true (hne d hd)⟩
  | word hword =>
    obtain ⟨c, cs, htext, -, hcs⟩ := hword.exists_cons
    exact ⟨c, cs, htext, hcs⟩

/-- What a lexeme begins with. -/
theorem Lexeme.head_cases (h : Lexeme (c :: text) reading) :
    isBlank c = true ∨ c = '#' ∨
      isNameStart c = true ∨ c.isDigit = true ∨ c = '-' ∨ c ∈ symbols := by
  generalize hcons : c :: text = all at h
  cases h with
  | blanks hc =>
    cases hcons
    exact .inl hc
  | comment =>
    cases hcons
    exact .inr (.inl rfl)
  | word hword =>
    obtain ⟨c', cs, rfl, hhead, -⟩ := hword.exists_cons
    cases hcons
    exact .inr (.inr hhead)

theorem Lexeme.unique (h : Lexeme text reading) (h' : Lexeme text reading') :
    reading = reading' := by
  cases h with
  | blanks hc =>
    cases h' with
    | blanks | comment => rfl
    | word hword => exact absurd hc (Bool.eq_false_iff.mp hword.not_skipped.1)
  | comment =>
    cases h' with
    | blanks | comment => rfl
    | word hword => exact absurd rfl hword.not_skipped.2
  | word hword =>
    cases h' with
    | blanks hc => exact absurd hc (Bool.eq_false_iff.mp hword.not_skipped.1)
    | comment => exact absurd rfl hword.not_skipped.2
    | word hword' => rw [hword.unique hword']

/-- A lexeme at the front of a text, as long as any that stands there. -/
structure Longest (text : List Char) (reading : List (Option Word)) (cs : List Char) : Prop where
  /-- It is a lexeme. -/
  lexeme : Lexeme text reading
  /-- It stands at the front. -/
  front : text <+: cs
  /-- None is longer. -/
  length_le : ∀ other reading', Lexeme other reading' → other <+: cs → other.length ≤ text.length

/-- A lexeme with which the next character does not go on is the longest at its place. -/
theorem Lexeme.longest (h : Lexeme (c :: text) reading)
    (hrest : ∀ d ∈ rest.head?, goesOn c d = false) :
    Longest (c :: text) reading (c :: (text ++ rest)) where
  lexeme := h
  front := List.prefix_append (c :: text) rest
  length_le := by
    intro other reading' hother hfront
    by_contra hlonger
    obtain ⟨c', cs', rfl, hgoes⟩ := hother.exists_cons
    obtain ⟨rfl, htail⟩ := List.cons_prefix_cons.mp hfront
    rw [List.length_cons, List.length_cons, Nat.add_le_add_iff_right, Nat.not_le] at hlonger
    -- a longer one goes on with the next character
    obtain ⟨more, rfl⟩ :=
      List.prefix_of_prefix_length_le (List.prefix_append text rest) htail hlonger.le
    cases more with
    | nil => simp at hlonger
    | cons d more =>
      obtain ⟨rest', rfl⟩ := (List.prefix_append_right_inj text).mp htail
      have hstop := hrest d (by simp)
      rw [hgoes d (by simp)] at hstop
      cases hstop

theorem Longest.unique (h : Longest text reading cs) (h' : Longest text' reading' cs) :
    text = text' ∧ reading = reading' := by
  have hlength : text.length = text'.length :=
    Nat.le_antisymm (h'.length_le _ _ h.lexeme h.front) (h.length_le _ _ h'.lexeme h'.front)
  obtain rfl : text = text' :=
    (List.prefix_of_prefix_length_le h.front h'.front hlength.le).eq_of_length hlength
  exact ⟨rfl, h.lexeme.unique h'.lexeme⟩

/-- Where a lexeme begins, one is the longest. -/
theorem Lexeme.exists_longest {text : List Char} {reading : List (Option Word)}
    (h : Lexeme text reading) (hfront : text <+: cs) :
    ∃ text reading, Longest text reading cs := by
  by_cases hle : ∀ other reading', Lexeme other reading' → other <+: cs → other.length ≤ text.length
  · exact ⟨text, reading, h, hfront, hle⟩
  · simp only [not_forall, Nat.not_le] at hle
    obtain ⟨other, reading', hother, hfront', hlonger⟩ := hle
    have hbound := hfront'.length_le
    exact hother.exists_longest hfront'
termination_by cs.length - text.length

/-! ## What is taken -/

/-- What is read where something begins. -/
def Munch.read (m : Munch) : List (Option Word) :=
  if m.skipped then [] else [m.word]

theorem not_of_mem_head?_dropWhile (p : Char → Bool) (cs : List Char) :
    ∀ d ∈ (cs.dropWhile p).head?, p d = false := by
  intro d hd
  have hstop := List.head?_dropWhile_not p cs
  rw [Option.mem_def.mp hd] at hstop
  simpa using hstop

theorem longest_takeWhile (h : Lexeme (c :: cs.takeWhile (goesOn c)) reading) :
    Longest (c :: cs.takeWhile (goesOn c)) reading (c :: cs) := by
  have hlongest := h.longest (not_of_mem_head?_dropWhile (goesOn c) cs)
  rwa [List.takeWhile_append_dropWhile] at hlongest

theorem munch_longest_comment (cs : List Char) :
    Longest ('#' :: cs.take (munch '#' cs).more) (munch '#' cs).read ('#' :: cs) := by
  have hline : '\n' ∉ cs.takeWhile (goesOn '#') := fun h =>
    absurd (List.mem_takeWhile_imp h) (by decide)
  rw [munch_comment, take_length_takeWhile]
  exact longest_takeWhile (.comment hline)

theorem munch_longest_name (hc : isNameStart c = true) (cs : List Char) :
    Longest (c :: cs.take (munch c cs).more) (munch c cs).read (c :: cs) := by
  have hgoes := goesOn_of_isNameStart hc
  have hparts : ∀ d ∈ cs.takeWhile (goesOn c), isNamePart d = true := fun d hd =>
    hgoes ▸ List.mem_takeWhile_imp hd
  rw [munch_of_isNameStart hc, take_length_takeWhile, ← hgoes]
  exact longest_takeWhile (.word (matches_nameWord hc hparts))

theorem munch_longest_digits (hc : c.isDigit = true) (cs : List Char) :
    Longest (c :: cs.take (munch c cs).more) (munch c cs).read (c :: cs) := by
  have hgoes := goesOn_of_isDigit hc
  have hdigits : ∀ d ∈ cs.takeWhile (goesOn c), d.isDigit = true := fun d hd =>
    hgoes ▸ List.mem_takeWhile_imp hd
  rw [munch_of_isDigit hc, take_length_takeWhile, ← hgoes]
  exact longest_takeWhile (.word (.digits hc hdigits))

theorem munch_longest_minus (cs : List Char) :
    Longest ('-' :: cs.take (munch '-' cs).more) (munch '-' cs).read ('-' :: cs) := by
  have hall : ∀ d ∈ cs.takeWhile Char.isDigit, d.isDigit = true := fun d hd =>
    List.mem_takeWhile_imp hd
  have hword : Matches ('-' :: cs.takeWhile Char.isDigit) (munch '-' cs).word := by
    rw [munch_minus]
    cases hdigits : cs.takeWhile Char.isDigit with
    | nil => exact .op .sub
    | cons d ds =>
      rw [hdigits] at hall
      exact .minus (hall d (by simp)) fun e he => hall e (by simp [he])
  have hread : (munch '-' cs).read = [(munch '-' cs).word] := by
    rw [munch_minus]
    rfl
  have htake : cs.take (munch '-' cs).more = cs.takeWhile Char.isDigit := by
    rw [munch_minus, take_length_takeWhile]
  rw [htake, hread]
  exact longest_takeWhile (.word hword)

/-- Where no blank stands, the longest lexeme is taken, with what is read of it; or one
character at fault, if no lexeme begins there. -/
theorem munch_longest (hc : isBlank c = false) (cs : List Char) :
    Longest (c :: cs.take (munch c cs).more) (munch c cs).read (c :: cs) ∨
      munch c cs = { more := 0 } ∧ ∀ text reading, Lexeme text reading → ¬ text <+: c :: cs := by
  by_cases hcomment : c = '#'
  · subst hcomment
    exact .inl (munch_longest_comment cs)
  by_cases hname : isNameStart c = true
  · exact .inl (munch_longest_name hname cs)
  by_cases hdigit : c.isDigit = true
  · exact .inl (munch_longest_digits hdigit cs)
  by_cases hminus : c = '-'
  · subst hminus
    exact .inl (munch_longest_minus cs)
  have hblank := Bool.eq_false_iff.mp hc
  have hmunch : munch c cs = { more := 0, word := symbolWord? c } := by
    rw [munch, if_neg hblank, if_neg hcomment, if_neg hname, if_neg hdigit, if_neg hminus]
  rw [hmunch]
  cases hsymbol : symbolWord? c with
  | some w =>
    have hgoes : ∀ d ∈ cs.head?, goesOn c d = false := by
      simp [goesOn, hblank, hcomment, hname, hdigit, hminus]
    exact .inl (Lexeme.longest (.word (matches_symbolWord? hsymbol)) hgoes)
  | none =>
    refine .inr ⟨rfl, fun text reading hlexeme hfront => ?_⟩
    obtain ⟨c', t, rfl, -⟩ := hlexeme.exists_cons
    obtain ⟨rfl, -⟩ := List.cons_prefix_cons.mp hfront
    rcases hlexeme.head_cases with hc' | hc' | hc' | hc' | hc' | hc'
    · exact hblank hc'
    · exact hcomment hc'
    · exact hname hc'
    · exact hdigit hc'
    · exact hminus hc'
    · exact (munch_symbol hc' cs).2 hsymbol

end Ramify.Stack.Scan
