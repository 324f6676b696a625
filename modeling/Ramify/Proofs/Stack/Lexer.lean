import Ramify.Proofs.Stack.Munch

/-!
# Lexers that take the longest match

A lexer cuts a text into items.  `TakesLongest` is what is asked of one: it reads the longest
lexeme at each place, and finds a fault where none begins.  It says nothing of places, nor how
far a fault goes.  `items` is such a lexer (`takesLongest_items`).
-/

namespace Ramify.Stack

open Scan

/-- What a lexer reads, without the places. -/
def readout (lexer : String → List Item) (cs : List Char) : List (Option Word) :=
  (lexer (String.ofList cs)).map Item.word

/-- A lexer reads the longest lexeme at each place, and finds a fault where none begins. -/
structure TakesLongest (lexer : String → List Item) : Prop where
  /-- Nothing is read of the empty text. -/
  nil : readout lexer [] = []
  /-- The longest lexeme at the front is read, and then what is behind it. -/
  longest {text rest : List Char} {reading : List (Option Word)} :
    Longest text reading (text ++ rest) →
      readout lexer (text ++ rest) = reading ++ readout lexer rest
  /-- Where no lexeme begins, there is a fault. -/
  fault {cs : List Char} : cs ≠ [] → (∀ text reading, Lexeme text reading → ¬ text <+: cs) →
    ∃ rest, readout lexer cs = none :: rest

/-! ## Reading by `munch` -/

theorem map_word_itemsFrom (offset other : Nat) (cs : List Char) :
    (itemsFrom offset cs).map Item.word = (itemsFrom other cs).map Item.word := by
  fun_induction itemsFrom offset cs generalizing other with
  | case1 => simp [itemsFrom]
  | case2 offset c cs m text stop rest hm ih =>
    rw [itemsFrom, if_pos hm]
    exact ih _
  | case3 offset c cs m text stop rest hm ih =>
    rw [itemsFrom, if_neg hm, List.map_cons, List.map_cons]
    exact congrArg _ (ih _)

theorem readout_items (cs : List Char) : readout items cs = (itemsFrom 0 cs).map Item.word := by
  rw [readout, items, String.toList_ofList]

theorem readout_items_cons (c : Char) (cs : List Char) :
    readout items (c :: cs) =
      (munch c cs).read ++ readout items (cs.drop (munch c cs).more) := by
  simp only [readout_items]
  rw [itemsFrom, Munch.read]
  split
  · exact map_word_itemsFrom _ _ _
  · exact congrArg _ (map_word_itemsFrom _ _ _)

theorem readout_items_blanks {blanks : List Char} (h : ∀ c ∈ blanks, isBlank c = true)
    (rest : List Char) : readout items (blanks ++ rest) = readout items rest := by
  induction blanks with
  | nil => rfl
  | cons c blanks ih =>
    rw [List.cons_append, readout_items_cons, munch_blank (h c (by simp))]
    exact ih fun d hd => h d (by simp [hd])

theorem takesLongest_items : TakesLongest items where
  nil := by simp [readout_items, itemsFrom]
  longest := by
    intro text rest reading hlongest
    obtain ⟨c, t, rfl, hgoes⟩ := hlongest.lexeme.exists_cons
    cases hblank : isBlank c with
    | true =>
      rw [goesOn_of_isBlank hblank] at hgoes
      obtain rfl := hlongest.lexeme.unique (.blanks hblank hgoes)
      exact readout_items_blanks (by simpa [hblank] using hgoes) rest
    | false =>
      rw [List.cons_append] at hlongest ⊢
      rcases munch_longest hblank (t ++ rest) with htaken | ⟨-, hnone⟩
      · obtain ⟨htext, rfl⟩ := hlongest.unique htaken
        have ht : t = (t ++ rest).take (munch c (t ++ rest)).more := (List.cons.inj htext).2
        have hsplit := List.take_append_drop (munch c (t ++ rest)).more (t ++ rest)
        rw [← ht] at hsplit
        rw [readout_items_cons, List.append_cancel_left hsplit]
      · exact absurd hlongest.front (hnone _ _ hlongest.lexeme)
  fault := by
    intro cs hcs hnone
    obtain ⟨c, cs, rfl⟩ := List.exists_cons_of_ne_nil hcs
    have hblank : isBlank c = false := by
      by_contra hc
      exact hnone [c] [] (.blanks (by simpa using hc) (by simp)) (by simp)
    rcases munch_longest hblank cs with htaken | ⟨hmunch, -⟩
    · exact absurd htaken.front (hnone _ _ htaken.lexeme)
    · refine ⟨readout items cs, ?_⟩
      rw [readout_items_cons, hmunch]
      rfl

/-! ## What any such lexer does -/

namespace TakesLongest

variable {lexer : String → List Item} (h : TakesLongest lexer)
include h

/-- A text that is not empty begins with a lexeme, behind which reading goes on, or with a
fault. -/
theorem readout_step {cs : List Char} (hcs : cs ≠ []) :
    (∃ text reading rest, Lexeme text reading ∧ rest.length < cs.length ∧
      readout lexer cs = reading ++ readout lexer rest) ∨
    ∃ rest, readout lexer cs = none :: rest := by
  by_cases hbegins : ∃ text reading, Lexeme text reading ∧ text <+: cs
  · obtain ⟨_, _, hlexeme, hfront⟩ := hbegins
    obtain ⟨text, reading, hlongest⟩ := hlexeme.exists_longest hfront
    obtain ⟨rest, rfl⟩ := hlongest.front
    obtain ⟨c, t, rfl, -⟩ := hlongest.lexeme.exists_cons
    refine .inl ⟨c :: t, reading, rest, hlongest.lexeme, ?_, h.longest hlongest⟩
    rw [List.cons_append, List.length_cons, List.length_append]
    omega
  · exact .inr (h.fault hcs fun text reading hlexeme hfront =>
      hbegins ⟨text, reading, hlexeme, hfront⟩)

theorem readout_blanks {blanks rest : List Char} (hblanks : ∀ c ∈ blanks, isBlank c = true)
    (hrest : ∀ d ∈ rest.head?, isBlank d = false) :
    readout lexer (blanks ++ rest) = readout lexer rest := by
  cases blanks with
  | nil => rfl
  | cons c blanks =>
    have hc : isBlank c = true := hblanks c (by simp)
    have hlexeme : Lexeme (c :: blanks) [] := .blanks hc fun d hd => hblanks d (by simp [hd])
    exact h.longest (hlexeme.longest (goesOn_of_isBlank hc ▸ hrest))

/-- A blank is skipped, whatever is behind it. -/
theorem readout_blank {c : Char} (hc : isBlank c = true) (cs : List Char) :
    readout lexer (c :: cs) = readout lexer cs := by
  have hblanks : ∀ d ∈ cs.takeWhile isBlank, isBlank d = true := fun d hd =>
    List.mem_takeWhile_imp hd
  have hrest := not_of_mem_head?_dropWhile isBlank cs
  have hsplit : cs.takeWhile isBlank ++ cs.dropWhile isBlank = cs :=
    List.takeWhile_append_dropWhile
  have hblanks' : ∀ d ∈ c :: cs.takeWhile isBlank, isBlank d = true := by
    simpa [hc] using hblanks
  -- with the blank and without it, the blanks are skipped up to the same place
  have hskip := h.readout_blanks hblanks hrest
  have hskip' := h.readout_blanks hblanks' hrest
  rw [List.cons_append] at hskip'
  rw [← hsplit, hskip, hskip']

/-- A comment is skipped with the end of its line. -/
theorem readout_comment {text : List Char} (htext : '\n' ∉ text) (rest : List Char) :
    readout lexer ('#' :: text ++ '\n' :: rest) = readout lexer rest := by
  have hlexeme : Lexeme ('#' :: text) [] := .comment htext
  have hline : ∀ d ∈ ('\n' :: rest).head?, goesOn '#' d = false := by simp [goesOn, isBlank]
  exact (h.longest (hlexeme.longest hline)).trans (h.readout_blank rfl rest)

end TakesLongest

end Ramify.Stack
