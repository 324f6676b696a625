import Ramify.Proofs.Stack.Lexer

/-!
# Words read back from their spellings

The words of a program, spelled one after another with blanks or comments between them, are
read as the same words by every lexer that takes the longest match.  `Word.Readable` are the
words that some program has: all but names that are not written like one or spell an operation.
The spelling of such a word matches it (`matches_spelling`), so it is read off the front of a
text up to the blank or comment behind it (`TakesLongest.readout_spelling`), where nothing is
read (`TakesLongest.readout_gap`).
-/

namespace Ramify.Stack

/-- Words that some program has.  A name begins like a name, goes on like one and spells no
operation; there is no condition on other words. -/
def Word.Readable : Word → Prop
  | .name text =>
    (∃ c cs, text.toList = c :: cs ∧ Scan.isNameStart c = true ∧
      ∀ d ∈ cs, Scan.isNamePart d = true) ∧
    ∀ o : Op, o.spelling ≠ text
  | _ => True

/-- What may stand between two words: blanks, and comments with the ends of their lines, but
not nothing. -/
inductive Gap : List Char → Prop
  /-- A space, a tab, a carriage return or a line feed. -/
  | blank {c : Char} : Scan.isBlank c = true → Gap [c]
  /-- A comment, up to the end of its line. -/
  | comment {text : List Char} : '\n' ∉ text → Gap ('#' :: text ++ ['\n'])
  /-- One gap after another. -/
  | append {first second : List Char} : Gap first → Gap second → Gap (first ++ second)

/-- The texts that spell words one after another, with gaps between them. -/
inductive Spaced : List Word → List Char → Prop
  /-- No words. -/
  | nil : Spaced [] []
  /-- The last word. -/
  | single (w : Word) : Spaced [w] w.spelling.toList
  /-- A word before others. -/
  | cons (w : Word) {gap : List Char} {ws : List Word} {text : List Char} :
    Gap gap → ws ≠ [] → Spaced ws text → Spaced (w :: ws) (w.spelling.toList ++ gap ++ text)

namespace Scan

/-! ## Integers -/

/-- Digits of a number have its value. -/
theorem digitsValue_toDigits (n : Nat) : digitsValue (Nat.toDigits 10 n) = n := by
  rw [digitsValue, ← Nat.ofDigitChars_eq_foldl, Nat.ofDigitChars_ten_toDigits]

theorem fitting_toInt (value : Int64) : fitting value.toInt = some (.int value) := by
  rw [fitting, if_pos ⟨value.minValue_le_toInt, value.toInt_le⟩, Int64.ofInt_toInt]

/-- The digits of a number are an integer. -/
theorem exists_digits (n : Nat) :
    ∃ c cs, n.repr.toList = c :: cs ∧ c.isDigit = true ∧ (∀ d ∈ cs, d.isDigit = true) ∧
      digitsValue (c :: cs) = n := by
  have hrepr : n.repr.toList = Nat.toDigits 10 n := by simp [Nat.repr_eq_ofList_toDigits]
  obtain ⟨c, cs, hdigits⟩ := List.exists_cons_of_ne_nil (Nat.toDigits_ne_nil (n := n) (b := 10))
  have hall : ∀ d ∈ c :: cs, d.isDigit = true := fun d hd =>
    Nat.isDigit_of_mem_toDigits (by decide) (by decide) (hdigits ▸ hd)
  exact ⟨c, cs, hrepr.trans hdigits, hall c (by simp), fun d hd => hall d (by simp [hd]),
    hdigits ▸ digitsValue_toDigits n⟩

theorem matches_repr (value : Int64) : Matches value.toInt.repr.toList (some (.int value)) := by
  rw [← fitting_toInt, Int.repr_eq_if]
  by_cases hsign : 0 ≤ value.toInt
  · obtain ⟨c, cs, htext, hc, hcs, hvalue⟩ := exists_digits value.toInt.toNat
    rw [if_pos hsign, htext]
    have hmatch := Matches.digits hc hcs
    rwa [hvalue, Int.toNat_of_nonneg hsign] at hmatch
  · obtain ⟨c, cs, htext, hc, hcs, hvalue⟩ := exists_digits (-value.toInt).toNat
    have hneg : -((-value.toInt).toNat : Int) = value.toInt := by omega
    rw [if_neg hsign, String.toList_append, htext]
    have hmatch := Matches.minus hc hcs
    rwa [hvalue, hneg] at hmatch

/-! ## One word -/

theorem matches_spelling {w : Word} (hw : w.Readable) : Matches w.spelling.toList (some w) := by
  cases w with
  | opening => exact .opening
  | closing => exact .closing
  | op o => exact .op o
  | int value => exact matches_repr value
  | name text =>
    obtain ⟨⟨c, cs, htext, hc, hcs⟩, hop⟩ := hw
    have hof : String.ofList (c :: cs) = text := by rw [← htext, String.ofList_toList]
    have hmatch := Matches.name hc hcs (hof ▸ hop)
    rwa [hof, ← htext] at hmatch

theorem readable_of_fitting {n : Int} {w : Word} (h : fitting n = some w) : w.Readable := by
  obtain ⟨-, rfl⟩ : _ ∧ Word.int (.ofInt n) = w := by simpa [fitting] using h
  trivial

theorem Matches.readable {text : List Char} {w : Word} (h : Matches text (some w)) :
    w.Readable := by
  generalize hword : some w = word at h
  cases h with
  | opening | closing | op =>
    cases hword
    trivial
  | digits | minus => exact readable_of_fitting hword.symm
  | name hc hcs hop =>
    cases hword
    exact ⟨⟨_, _, String.toList_ofList, hc, hcs⟩, hop⟩

theorem Lexeme.readable {text : List Char} {reading : List (Option Word)}
    (h : Lexeme text reading) : ∀ w, some w ∈ reading → w.Readable := by
  intro w hw
  cases h with
  | blanks | comment => cases hw
  | word hword =>
    obtain rfl := List.mem_singleton.mp hw
    exact hword.readable

/-! ## Words before a gap -/

/-- Nothing at the front of a text goes on with a word: there is a blank, a comment or the
end. -/
def Stops (rest : List Char) : Prop :=
  ∀ c ∈ rest.head?, isBlank c = true ∨ c = '#'

theorem Stops.not_isNamePart {rest : List Char} (h : Stops rest) :
    ∀ c ∈ rest.head?, isNamePart c = false := by
  intro c hc
  have hstop := h c hc
  rw [← Char.toNat_inj, isBlank_iff] at hstop
  rw [Bool.eq_false_iff, Ne, isNamePart_iff, isNameStart_iff, isDigit_iff]
  have : '#'.toNat = 35 := rfl
  omega

theorem stops_gap {gap : List Char} (h : Gap gap) (rest : List Char) : Stops (gap ++ rest) := by
  induction h generalizing rest with
  | blank hc => simpa [Stops] using .inl hc
  | comment => simp [Stops]
  | append _ _ ihfirst _ =>
    rw [List.append_assoc]
    exact ihfirst _

/-- No lexeme goes on with a word when a gap begins. -/
theorem Matches.longest {text rest : List Char} {word : Option Word} (h : Matches text word)
    (hrest : Stops rest) : Longest text [word] (text ++ rest) := by
  obtain ⟨c, cs, rfl, -, -⟩ := h.exists_cons
  obtain ⟨hblank, hcomment⟩ := h.not_skipped
  refine (Lexeme.word h).longest fun d hd => Bool.eq_false_iff.mpr fun hgoes => ?_
  have hpart := isNamePart_of_goesOn hblank hcomment hgoes
  rw [hrest.not_isNamePart d hd] at hpart
  cases hpart

end Scan

/-! ## Lexers -/

/-- A lexer reads the text as these words, without a fault. -/
def ReadAs (lexer : String → List Item) (text : String) (ws : List Word) : Prop :=
  (lexer text).map Item.word = ws.map some

namespace TakesLongest

open Scan

variable {lexer : String → List Item} (h : TakesLongest lexer)
include h

/-- Nothing is read in a gap. -/
theorem readout_gap {gap : List Char} (hgap : Gap gap) (rest : List Char) :
    readout lexer (gap ++ rest) = readout lexer rest := by
  induction hgap generalizing rest with
  | blank hc => exact h.readout_blank hc rest
  | comment htext =>
    rw [List.append_assoc]
    exact h.readout_comment htext rest
  | append _ _ ihfirst ihsecond => rw [List.append_assoc, ihfirst, ihsecond]

/-- A readable word is read off its spelling, if nothing behind the spelling goes on with
it. -/
theorem readout_spelling {w : Word} (hw : w.Readable) {rest : List Char} (hrest : Stops rest) :
    readout lexer (w.spelling.toList ++ rest) = some w :: readout lexer rest :=
  h.longest ((matches_spelling hw).longest hrest)

/-- Readable words that are spelled with gaps between them are what is read. -/
theorem readout_spaced {ws : List Word} {text : List Char} (htext : Spaced ws text)
    (hws : ∀ w ∈ ws, w.Readable) : readout lexer text = ws.map some := by
  induction htext with
  | nil => exact h.nil
  | single w =>
    have hstops : Stops [] := by simp [Stops]
    have hread := h.readout_spelling (hws w (by simp)) hstops
    rwa [List.append_nil, h.nil] at hread
  | @cons w gap ws text hgap _ _ ih =>
    rw [List.append_assoc, h.readout_spelling (hws w (by simp)) (stops_gap hgap text),
      h.readout_gap hgap, ih fun v hv => hws v (by simp [hv]), List.map_cons]

/-- What is read without a fault are readable words. -/
theorem readable_of_readout {cs : List Char} {ws : List Word}
    (hread : readout lexer cs = ws.map some) : ∀ w ∈ ws, w.Readable := by
  by_cases hcs : cs = []
  · rw [hcs, h.nil] at hread
    simp [List.map_eq_nil_iff.mp hread.symm]
  rcases h.readout_step hcs with ⟨text, reading, rest, hlexeme, hshorter, hstep⟩ | ⟨rest, hfault⟩
  · rw [hstep] at hread
    obtain ⟨first, behind, rfl, hfirst, hbehind⟩ := List.map_eq_append_iff.mp hread.symm
    have hrest := readable_of_readout hbehind.symm
    intro w hw
    rcases List.mem_append.mp hw with hw | hw
    · exact hlexeme.readable w (hfirst ▸ List.mem_map_of_mem hw)
    · exact hrest w hw
  · rw [hfault] at hread
    cases ws with
    | nil => cases hread
    | cons w ws => cases hread
termination_by cs.length

theorem readable {text : String} {ws : List Word} (hread : ReadAs lexer text ws) :
    ∀ w ∈ ws, w.Readable := by
  have hreadout : readout lexer text.toList = ws.map some := by
    rwa [readout, String.ofList_toList]
  exact h.readable_of_readout hreadout

theorem readAs_of_spaced {text : String} {ws : List Word} (hws : ∀ w ∈ ws, w.Readable)
    (htext : Spaced ws text.toList) : ReadAs lexer text ws := by
  have hread := h.readout_spaced htext hws
  rwa [readout, String.ofList_toList] at hread

end TakesLongest

/-- Words can be spelled with a blank between any two. -/
theorem exists_spaced (ws : List Word) : ∃ text, Spaced ws text := by
  induction ws with
  | nil => exact ⟨_, .nil⟩
  | cons w ws ih =>
    by_cases hws : ws = []
    · subst hws
      exact ⟨_, .single w⟩
    · obtain ⟨text, htext⟩ := ih
      exact ⟨_, .cons w (.blank (c := ' ') rfl) hws htext⟩

/-- Programs are cut into items by a lexer that takes the longest match.  If such a lexer reads a
text as some words without a fault, then it reads so every text that spells these words one after
another with any gaps between them.  The rows of words that it reads some text as are those of
readable words: every bracket, operation and integer of 64 bits, and every name that is written
like a name and spells no operation. -/
theorem spaced_words_read_back :
    TakesLongest items ∧
    ∀ lexer, TakesLongest lexer →
      (∀ (source text : String) (ws : List Word), ReadAs lexer source ws →
        Spaced ws text.toList → ReadAs lexer text ws) ∧
      ∀ ws : List Word, (∃ source, ReadAs lexer source ws) ↔ ∀ w ∈ ws, w.Readable := by
  refine ⟨takesLongest_items, fun lexer h => ⟨fun source text ws hsource htext => ?_,
    fun ws => ⟨?_, fun hws => ?_⟩⟩⟩
  · exact h.readAs_of_spaced (h.readable hsource) htext
  · rintro ⟨source, hsource⟩
    exact h.readable hsource
  · obtain ⟨text, htext⟩ := exists_spaced ws
    exact ⟨String.ofList text, h.readAs_of_spaced hws (by rwa [String.toList_ofList])⟩

/-- A minus as a sign, alone and inside a name, the least integer, a name that begins like an
operation, and integers that are not spelled as they were written. -/
theorem spaced_words_read_back_minus :
    let source := "[007 -0 dup-- -9223372036854775808 - #-\n]"
    let ws : List Word :=
      [.opening, .int 7, .int 0, .name "dup--", .int Int64.minValue, .op .sub, .closing]
    let text := "[ 7\t0\r\ndup-- #1\n\n-9223372036854775808 -\n]"
    ReadAs items source ws ∧ Spaced ws text.toList ∧ ReadAs items text ws := by
  intro source ws text
  have hsource : ReadAs items source ws := by
    unfold ReadAs
    decide +kernel
  have space : Gap [' '] := .blank rfl
  have line : Gap ['\n'] := .blank rfl
  have htext : Spaced ws text.toList := by
    have hcomment : Gap ('#' :: ['1'] ++ ['\n']) := .comment (by decide)
    have h : Spaced ws _ :=
      .cons .opening space (by simp) <| .cons (.int 7) (.blank (c := '\t') rfl) (by simp) <|
      .cons (.int 0) (.append (.blank (c := '\r') rfl) line) (by simp) <|
      .cons (.name "dup--") (.append (.append space hcomment) line) (by simp) <|
      .cons (.int Int64.minValue) space (by simp) <| .cons (.op .sub) line (by simp) <|
      .single .closing
    refine Eq.mp (congrArg (Spaced ws) ?_) h
    decide +kernel
  obtain ⟨hitems, hlexers⟩ := spaced_words_read_back
  exact ⟨hsource, htext, (hlexers items hitems).1 source text ws hsource htext⟩

end Ramify.Stack
