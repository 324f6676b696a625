import Ramify.Stack.Compile
import Ramify.Proofs.Exactness
import Ramify.Proofs.Stack.Branches

/-!
# What compiling a program comes to

A parse of a program holds one branch, which has read what the words so far spell (`Holds`).
It loses that branch at a closing bracket without an open quotation, and at no other word.
So the first item that is at fault is the one that is reported, an open quotation is found
out at the end, and everything else compiles to the program that its words spell (`Answers`).
All this is a matter of the items, whatever lexer has cut the program into them.
-/

namespace Ramify.Stack

/-! ## Items at fault -/

/-- What is wrong with an item that comes after others: it is no word, or it closes a
quotation that was not opened. -/
def Item.error? (before : List Item) (item : Item) : Option Error :=
  match item.word with
  | none => some (.notAWord item.span)
  | some .closing =>
    if unmatched (before.filterMap Item.word) = 0 then some (.unexpected item.text item.span)
    else none
  | some _ => none

/-- No item is at fault. -/
def Faultless (items : List Item) : Prop :=
  ∀ before item after, items = before ++ item :: after → item.error? before = none

theorem faultless_iff {items : List Item} :
    Faultless items ↔
      ∀ i : Fin items.length, (items.get i).error? (items.take i) = none := by
  constructor
  · intro h i
    refine h (items.take i) (items.get i) (items.drop (i + 1)) ?_
    rw [List.get_eq_getElem, ← List.drop_eq_getElem_cons, List.take_append_drop]
  · rintro h before item after rfl
    have hitem := h ⟨before.length, by simp⟩
    simpa using hitem

instance (items : List Item) : Decidable (Faultless items) :=
  decidable_of_iff _ faultless_iff.symm

theorem Faultless.of_append {items rest : List Item} (h : Faultless (items ++ rest)) :
    Faultless items := by
  intro before item after heq
  exact h before item (after ++ rest) (by simp [heq])

/-- An item is at fault just if it is no word or cannot be read. -/
theorem Item.error?_eq_none_iff {before : List Item} {item : Item} {n : Nesting}
    (hn : Nesting.new.readAll (before.filterMap Item.word) = some n) :
    item.error? before = none ↔ ∃ word n', item.word = some word ∧ n.read word = some n' := by
  cases hword : item.word with
  | none => simp [Item.error?, hword]
  | some word =>
      have hread : (∃ n', n.read word = some n') ↔ n.read word ≠ none :=
        Option.ne_none_iff_exists'.symm
      have hsome : (∃ other n', some word = some other ∧ n.read other = some n') ↔
          ∃ n', n.read word = some n' := by simp
      rw [hsome, hread, Ne, Nesting.read_eq_none_iff, Nesting.outers_eq_nil_iff hn]
      cases word with
      | closing => simp [Item.error?, hword]
      | opening | op | int | name => simp [Item.error?, hword]

/-! ## The number of items -/

theorem Scan.length_itemsFrom_le (offset : Nat) (cs : List Char) :
    (itemsFrom offset cs).length ≤ cs.length := by
  fun_induction itemsFrom offset cs with
  | case1 => exact Nat.le_refl _
  | case2 offset c cs m text stop rest hskipped ih =>
      have hrest : rest.length ≤ (cs.drop m.more).length := ih
      rw [List.length_drop] at hrest
      rw [List.length_cons]
      omega
  | case3 offset c cs m text stop rest hskipped ih =>
      have hrest : rest.length ≤ (cs.drop m.more).length := ih
      rw [List.length_drop] at hrest
      rw [List.length_cons, List.length_cons]
      omega

theorem Scan.length_le_byteLength (cs : List Char) : cs.length ≤ byteLength cs := by
  induction cs with
  | nil => exact Nat.le_refl _
  | cons c cs ih =>
      have hpos := c.utf8Size_pos
      have hcons : byteLength (c :: cs) = c.utf8Size + byteLength cs := rfl
      rw [List.length_cons, hcons]
      omega

/-! ## The parse -/

/-- A parse without limits whose only branch has read what the words so far spell. -/
structure Holds (f : Forest Word Instruction) (n : Nesting) : Prop extends f.Free where
  /-- The grammar is that of programs. -/
  grammar_eq : f.grammar = Program.table
  /-- There is one branch. -/
  only : ∃ b, f.branches = [b] ∧ Program.Comes f.consumed n b

theorem Holds.new : Holds (.new Program.table .unlimited) .new where
  toFree := .new Program.table_isBuilt
  grammar_eq := rfl
  only := by
    refine ⟨.start 36, rfl, ?_⟩
    exact .enter (Branch.start_fits _ _) .top ⟨rfl, rfl, rfl, rfl⟩

variable {f : Forest Word Instruction} {n n' : Nesting} {word : Word}

theorem Holds.advanced_branches (h : Holds f n) {b : Branch Word Instruction}
    (hb : f.branches = [b]) (word : Word) :
    (f.advanced word).branches =
      ((Program.between f.consumed (some word)).rests b).filterMap (Program.table.consume word) := by
  rw [h.toFree.advanced_branches, h.toFree.rested_eq, hb, List.flatMap_singleton, Forest.cursor,
    h.grammar_eq]
  rfl

/-- A word that can be read leaves one branch. -/
theorem Holds.advanced (h : Holds f n) (hread : n.read word = some n') :
    Holds (f.advanced word) n' := by
  obtain ⟨b, hb, hcomes⟩ := h.only
  obtain ⟨x, hx, hnext⟩ := (hcomes.step word).2 n' hread
  have hbranches : (f.advanced word).branches = [x] := (h.advanced_branches hb word).trans hx
  have hfree := h.toFree.advanced word
  refine ⟨hfree, h.grammar_eq, x, hbranches, hnext ?_⟩
  have hfit := hfree.fits x (by rw [hbranches]; exact List.mem_singleton.mpr rfl)
  have hgrammar : (f.advanced word).grammar = Program.table := h.grammar_eq
  rw [hgrammar] at hfit
  exact hfit

/-- A word that cannot be read leaves no branch. -/
theorem Holds.isHopeless_advanced (h : Holds f n) (hread : n.read word = none) :
    (f.advanced word).isHopeless = true := by
  obtain ⟨b, hb, hcomes⟩ := h.only
  rw [Forest.isHopeless, h.advanced_branches hb, (hcomes.step word).1 hread]
  rfl

/-- Closing the parse gives the program, unless a quotation is open. -/
theorem Holds.close (h : Holds f n) :
    f.close.result = if n.outers = [] then .ok n.level else .error (.mismatch f.consumed) := by
  obtain ⟨b, hb, hcomes⟩ := h.only
  have hfinals : f.finals = ((Program.between f.consumed none).rests b).filter Branch.isDone := by
    rw [h.toFree.finals_eq, h.toFree.rested_eq, hb, List.flatMap_singleton, Forest.cursor,
      h.grammar_eq]
    rfl
  rw [Forest.close_of_room h.running (h.toFree.overrun_eq_none none), hfinals]
  by_cases hnil : n.outers = []
  · obtain ⟨x, hx, htokens⟩ := hcomes.finish.2 hnil
    rw [hx, if_pos hnil, ← htokens]
    rfl
  · rw [hcomes.finish.1 hnil, if_neg hnil]
    rfl

/-! ## Items one after the other -/

section Items

variable {item : Item} {items after : List Item}

theorem takeItems_of_none (h : item.word = none) :
    (takeItems f (item :: after)).1 = .error (.notAWord item.span) := by
  simp [takeItems, h]

/-- A word that cannot be read is unexpected. -/
theorem Holds.takeItems_of_unread (h : Holds f n) (hroom : f.consumed < maxCount)
    (hword : item.word = some word) (hread : n.read word = none) :
    (takeItems f (item :: after)).1 = .error (.unexpected item.text item.span) := by
  obtain ⟨hok, hforest⟩ := h.toFree.take hroom word
  simp [takeItems, hword, hok, hforest, h.isHopeless_advanced hread]

/-- A word that can be read is taken. -/
theorem Holds.takeItems_of_read (h : Holds f n) (hroom : f.consumed < maxCount)
    (hword : item.word = some word) (hread : n.read word = some n') :
    (takeItems f (item :: after)).1 = (takeItems (f.advanced word) after).1 := by
  obtain ⟨hok, hforest⟩ := h.toFree.take hroom word
  obtain ⟨b, hb, -⟩ := (h.advanced hread).only
  have hlive : (f.advanced word).isHopeless = false := by
    rw [Forest.isHopeless, hb]
    rfl
  simp [takeItems, hword, hok, hforest, hlive]

theorem takeItems_append {f' : Forest Word Instruction} (h : (takeItems f items).1 = .ok f') :
    (takeItems f (items ++ after)).1 = (takeItems f' after).1 := by
  induction items generalizing f with
  | nil =>
      cases h
      rfl
  | cons item items ih =>
      rw [List.cons_append]
      rw [takeItems] at h ⊢
      cases hword : item.word with
      | none =>
          rw [hword] at h
          cases h
      | some word =>
          rw [hword] at h
          simp only at h ⊢
          split at h
          · cases h
          · split at h
            · cases h
            next hlive =>
              rw [if_neg hlive]
              exact ih h

/-- Items of which none is at fault are taken, and the parse has read their words. -/
theorem Faultless.taken (h : Faultless items) (hcount : items.length ≤ maxCount) :
    ∃ f n, (takeItems (.new Program.table .unlimited) items).1 = .ok f ∧ Holds f n ∧
      f.consumed = items.length ∧ (items.filterMap Item.word).length = items.length ∧
      Nesting.new.readAll (items.filterMap Item.word) = some n := by
  induction items using List.reverseRecOn with
  | nil => exact ⟨_, _, rfl, .new, rfl, rfl, rfl⟩
  | append_singleton items item ih =>
      rw [List.length_append, List.length_singleton] at hcount
      obtain ⟨f, n, htake, hholds, hconsumed, hlength, hn⟩ := ih h.of_append (by omega)
      obtain ⟨word, n', hword, hread⟩ :=
        (Item.error?_eq_none_iff hn).mp (h items item [] rfl)
      refine ⟨f.advanced word, n', ?_, hholds.advanced hread, ?_, ?_, ?_⟩
      · rw [takeItems_append htake, hholds.takeItems_of_read (by omega) hword hread]
        rfl
      · rw [List.length_append, ← hconsumed]
        rfl
      · simp [hword, hlength]
      · rw [List.filterMap_append, Nesting.readAll_append, hn]
        simp [hword, Nesting.readAll, hread]

/-- The first item at fault ends the parse. -/
theorem Faultless.stopped (h : Faultless items) (hcount : items.length < maxCount)
    {error : Error} (herror : item.error? items = some error) :
    (takeItems (.new Program.table .unlimited) (items ++ item :: after)).1 = .error error := by
  obtain ⟨f, n, htake, hholds, hconsumed, -, hn⟩ := h.taken (Nat.le_of_lt hcount)
  rw [takeItems_append htake]
  cases hword : item.word with
  | none =>
      rw [Item.error?, hword] at herror
      cases herror
      exact takeItems_of_none hword
  | some word =>
      cases hread : n.read word with
      | none =>
          obtain ⟨rfl, houters⟩ := Nesting.read_eq_none_iff.mp hread
          rw [Item.error?, hword] at herror
          simp only [(Nesting.outers_eq_nil_iff hn).mp houters, if_true] at herror
          cases herror
          exact hholds.takeItems_of_unread (by omega) hword hread
      | some n' =>
          rw [(Item.error?_eq_none_iff hn).mpr ⟨word, n', hword, hread⟩] at herror
          cases herror

/-- Among items of which some are at fault, one is the first. -/
theorem exists_first_error (h : ¬ Faultless items) :
    ∃ before item after error, items = before ++ item :: after ∧ Faultless before ∧
      item.error? before = some error := by
  induction items using List.reverseRecOn with
  | nil =>
      refine absurd (fun before item after heq => ?_) h
      simp at heq
  | append_singleton items item ih =>
      by_cases hitems : Faultless items
      · cases herror : item.error? items with
        | some error => exact ⟨items, item, [], error, rfl, hitems, herror⟩
        | none =>
            refine absurd (fun before other after heq => ?_) h
            rcases List.eq_nil_or_concat after with rfl | ⟨after, last, rfl⟩
            · obtain ⟨rfl, hother⟩ := List.append_inj' heq rfl
              cases hother
              exact herror
            · have hconcat : items ++ [item] = (before ++ other :: after) ++ [last] := by
                simpa using heq
              exact hitems before other after (List.append_inj' hconcat rfl).1
      · obtain ⟨before, other, after, error, rfl, hbefore, herror⟩ := ih hitems
        exact ⟨before, other, after ++ [item], error, by simp, hbefore, herror⟩

end Items

/-! ## Compiling -/

section Compiling

variable {items : List Item}

/-- Apart from its notes, compiling takes the items and closes the parse. -/
theorem compileItems_fst (g : Grammar Word Instruction) (items : List Item) :
    (compileItems g items).1 =
      (takeItems (.new g .unlimited) items).1.bind fun f =>
        f.close.result.mapError Error.incomplete := by
  rw [compileItems]
  rcases takeItems (.new g .unlimited) items with ⟨_ | f, notes⟩
  · rfl
  · cases hclose : f.close.result with
    | ok program => simp [Except.bind, Except.mapError, hclose]
    | error refusal => simp [Except.bind, Except.mapError, hclose]

/-- The first item at fault is reported. -/
theorem compileItems_of_first_error {before after : List Item} {item : Item} {error : Error}
    (hcount : (before ++ item :: after).length ≤ maxCount) (hbefore : Faultless before)
    (herror : item.error? before = some error) :
    (compileItems Program.table (before ++ item :: after)).1 = .error error := by
  rw [List.length_append, List.length_cons] at hcount
  rw [compileItems_fst, hbefore.stopped (by omega) herror]
  rfl

/-- Items of which none is at fault compile unless a quotation is open. -/
theorem compileItems_of_faultless (hcount : items.length ≤ maxCount) (h : Faultless items) :
    ∃ n, Nesting.new.readAll (items.filterMap Item.word) = some n ∧
      (compileItems Program.table items).1 = if n.outers = [] then .ok n.level
        else .error (.incomplete (.mismatch (items.filterMap Item.word).length)) := by
  obtain ⟨f, n, htake, hholds, hconsumed, hlength, hn⟩ := h.taken hcount
  refine ⟨n, hn, ?_⟩
  have hclose : (compileItems Program.table items).1 =
      f.close.result.mapError Error.incomplete := by
    rw [compileItems_fst, htake]
    rfl
  rw [hclose, hholds.close, hconsumed, ← hlength]
  split
  · rfl
  · rfl

/-- What compiling can come to. -/
theorem compileItems_cases (hcount : items.length ≤ maxCount) :
    (∃ program, (compileItems Program.table items).1 = .ok program) ∨
      (∃ span, (compileItems Program.table items).1 = .error (.notAWord span)) ∨
      (∃ text span, (compileItems Program.table items).1 = .error (.unexpected text span)) ∨
      ∃ consumed, (compileItems Program.table items).1 =
        .error (.incomplete (.mismatch consumed)) := by
  by_cases hfaultless : Faultless items
  · obtain ⟨n, -, hresult⟩ := compileItems_of_faultless hcount hfaultless
    split at hresult
    · exact .inl ⟨_, hresult⟩
    · exact .inr (.inr (.inr ⟨_, hresult⟩))
  · obtain ⟨before, item, after, error, rfl, hbefore, herror⟩ := exists_first_error hfaultless
    have hresult := compileItems_of_first_error hcount hbefore herror
    unfold Item.error? at herror
    split at herror
    · cases herror
      exact .inr (.inl ⟨_, hresult⟩)
    · split at herror
      · cases herror
        exact .inr (.inr (.inl ⟨_, _, hresult⟩))
      · cases herror
    · cases herror

/-- A parse of words never holds more than one branch. -/
theorem size_takeAll_le : ∀ {taken : List Word} {f : Forest Word Instruction},
    (∃ n, Holds f n) ∨ f.Free ∧ f.isHopeless = true → f.consumed + taken.length ≤ maxCount →
    (f.takeAll taken).forest.size ≤ 1
  | [], f, hf, _ => by
      rcases hf with ⟨n, hholds⟩ | ⟨-, hhopeless⟩
      · obtain ⟨b, hb, -⟩ := hholds.only
        show f.branches.length ≤ 1
        rw [hb]
        exact Nat.le_refl _
      · show f.branches.length ≤ 1
        rw [List.isEmpty_iff.mp hhopeless]
        exact Nat.zero_le _
  | word :: taken, f, hf, hcount => by
      have hfree : f.Free := by
        rcases hf with ⟨n, hholds⟩ | ⟨hfree, -⟩
        · exact hholds.toFree
        · exact hfree
      have hnext : (∃ n, Holds (f.advanced word) n) ∨
          (f.advanced word).Free ∧ (f.advanced word).isHopeless = true := by
        rcases hf with ⟨n, hholds⟩ | ⟨-, hhopeless⟩
        · cases hread : n.read word with
          | some n' => exact .inl ⟨n', hholds.advanced hread⟩
          | none => exact .inr ⟨hfree.advanced word, hholds.isHopeless_advanced hread⟩
        · exact .inr ⟨hfree.advanced word, Forest.advanced_isHopeless hhopeless word⟩
      rw [List.length_cons] at hcount
      obtain ⟨hok, hforest⟩ := hfree.take (by omega) word
      have hadvanced : (f.advanced word).consumed = f.consumed + 1 := rfl
      rw [(Forest.takeAll_cons hok).2, hforest]
      exact size_takeAll_le hnext (by omega)

/-- What compiling items has to come to. -/
structure Answers (grammar : Grammar Word Instruction) (items : List Item)
    (result : Except Error (List Instruction)) : Prop where
  /-- The first item at fault is reported. -/
  first_error : ∀ before item after error, items = before ++ item :: after → Faultless before →
    item.error? before = some error → result = .error error
  /-- If none is, but a quotation is open at the end, then the words do not match. -/
  unclosed : Faultless items → 0 < unmatched (items.filterMap Item.word) →
    result = .error (.incomplete (.mismatch (items.filterMap Item.word).length))
  /-- Else the result is the one program that the words spell. -/
  program : Faultless items → unmatched (items.filterMap Item.word) = 0 →
    ∃ program, Reads (items.filterMap Item.word) program ∧
      (∀ other, Reads (items.filterMap Item.word) other → other = program) ∧
      result = .ok program
  /-- No program is ambiguous. -/
  not_ambiguous : ∀ count consumed, result ≠ .error (.incomplete (.ambiguous count consumed))
  /-- No parse is stopped. -/
  not_aborted : ∀ reason, result ≠ .error (.incomplete (.aborted reason))
  /-- Neither the grammar nor a limit is at fault. -/
  not_engine : ∀ fault, result ≠ .error (.engine fault)
  /-- The parse never holds more than one branch. -/
  size_le : ∀ taken, taken <+: items.filterMap Item.word →
    ((Forest.new grammar .unlimited).takeAll taken).forest.size ≤ 1

theorem answers_compileItems (hcount : items.length ≤ maxCount) :
    Answers Program.table items (compileItems Program.table items).1 := by
  have hoccurs := compileItems_cases hcount
  constructor
  case first_error =>
    rintro before item after error rfl hbefore herror
    exact compileItems_of_first_error hcount hbefore herror
  case unclosed =>
    intro hfaultless hopen
    obtain ⟨n, hn, hresult⟩ := compileItems_of_faultless hcount hfaultless
    have houters : n.outers ≠ [] := by
      intro hnil
      rw [(Nesting.outers_eq_nil_iff hn).mp hnil] at hopen
      exact Nat.lt_irrefl 0 hopen
    rw [hresult, if_neg houters]
  case program =>
    intro hfaultless hclosed
    obtain ⟨⟨program, outers⟩, hn, hresult⟩ := compileItems_of_faultless hcount hfaultless
    obtain rfl : outers = [] := (Nesting.outers_eq_nil_iff hn).mpr hclosed
    refine ⟨program, Nesting.readAll_eq_some_iff.mp hn, fun other hother => ?_, hresult⟩
    cases hn.symm.trans (Nesting.readAll_eq_some_iff.mpr hother)
    rfl
  case not_ambiguous =>
    intro count consumed h
    rw [h] at hoccurs
    simp at hoccurs
  case not_aborted =>
    intro reason h
    rw [h] at hoccurs
    simp at hoccurs
  case not_engine =>
    intro fault h
    rw [h] at hoccurs
    simp at hoccurs
  case size_le =>
    intro taken htaken
    have hwords : (items.filterMap Item.word).length ≤ items.length := List.length_filterMap_le _ _
    have hlength := htaken.length_le
    have hzero : (Forest.new Program.table .unlimited).consumed = 0 := rfl
    exact size_takeAll_le (.inl ⟨_, .new⟩) (by omega)

end Compiling

/-! ## Programs as texts -/

/-- A text has no more items than bytes. -/
theorem length_items_le (source : String) :
    (items source).length ≤ Scan.byteLength source.toList :=
  (Scan.length_itemsFrom_le 0 source.toList).trans (Scan.length_le_byteLength source.toList)

theorem compile_fst (source : String) :
    (compile source).1 = (compileItems Program.table (items source)).1 := by
  unfold compile
  rw [Program.grammar_eq]
  rfl

/-- Compiling reports the first item at fault; or else, if a quotation is open at the end, that
the words do not match; or else it gives the program that the words spell.  It reports nothing
else, and its parse never holds more than one branch.  So it is for any items, and for the items
of any text.  The items of a parse, and the bytes of a text, can be counted. -/
theorem compile_exact :
    ∃ grammar, Program.grammar = .ok grammar ∧
      (∀ items : List Item, items.length ≤ maxCount →
        Answers grammar items (compileItems grammar items).1) ∧
      ∀ source : String, Scan.byteLength source.toList ≤ maxCount →
        Answers grammar (items source) (compile source).1 := by
  refine ⟨Program.table, Program.grammar_eq, fun items => answers_compileItems,
    fun source hsize => ?_⟩
  rw [compile_fst]
  exact answers_compileItems ((length_items_le source).trans hsize)

/-- A quotation in a quotation compiles; a bracket that closes neither is unexpected, and one that
is not closed is found out at the end.  A lexer may find longer faults. -/
theorem compile_exact_nested :
    let source := "1 [dup [-2 x-]call] if"
    let program : List Instruction :=
      [.push 1, .quote [.op .dup, .quote [.push (-2), .word "x-"], .op .call], .op .cond]
    (Faultless (items source) ∧ Reads (words source) program ∧
      (compile source).1 = .ok program) ∧
    (compile "1 [dup [-2]] ]call").1 = .error (.unexpected "]" ⟨13, 14⟩) ∧
    (compile "1 [dup [-2 x-]call").1 = .error (.incomplete (.mismatch 8)) ∧
    ∃ grammar, Program.grammar = .ok grammar ∧
      (compileItems grammar [⟨0, 1, "[", some .opening⟩, ⟨2, 5, "@@@", none⟩]).1 =
        .error (.notAWord ⟨2, 5⟩) := by
  intro source program
  obtain ⟨grammar, hgrammar, hitems, hsources⟩ := compile_exact
  have hfaultless : Faultless (items source) := by decide +kernel
  have hreads : Reads (words source) program := by
    have hwords : words source = [.int 1, .opening, .op .dup, .opening, .int (-2), .name "x-",
        .closing, .op .call, .closing, .op .cond] := by
      decide +kernel
    rw [hwords]
    exact Nesting.readAll_eq_some_iff.mp rfl
  obtain ⟨program', -, hunique, hresult⟩ :=
    (hsources source (by decide)).program hfaultless (by decide +kernel)
  rw [← hunique program hreads] at hresult
  refine ⟨⟨hfaultless, hreads, hresult⟩, ?_, ?_, grammar, hgrammar, ?_⟩
  · have hsplit : items "1 [dup [-2]] ]call" =
        (items "1 [dup [-2]] ]call").take 7 ++
          ⟨13, 14, "]", some .closing⟩ :: [⟨14, 18, "call", some (.op .call)⟩] := by
      decide +kernel
    exact (hsources _ (by decide)).first_error _ _ _ _ hsplit (by decide +kernel)
      (by decide +kernel)
  · have hwords : (words "1 [dup [-2 x-]call").length = 8 := by decide +kernel
    rw [← hwords]
    exact (hsources _ (by decide)).unclosed (by decide +kernel) (by decide +kernel)
  · exact (hitems [⟨0, 1, "[", some .opening⟩, ⟨2, 5, "@@@", none⟩] (by decide)).first_error
      [⟨0, 1, "[", some .opening⟩] _ [] _ rfl (by decide +kernel) rfl

end Ramify.Stack
