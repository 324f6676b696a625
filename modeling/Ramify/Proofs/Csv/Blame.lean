import Ramify.Proofs.Continuation
import Ramify.Proofs.Csv.Reader

/-!
# The first character that cannot be right

A reader stops at a character as soon as it leaves no branch.  That is neither too early nor
too late: a text leaves a branch if and only if it is the beginning of a table.

The grammar of tables looks ahead, so a live branch need not be one that can be completed.
But it looks ahead only at the beginning of a bare cell, before anything else of the cell.
Whatever a branch can have left within what is open matches some text, whatever follows
(`Dialect.closable`): the rest of a cell, a further cell between quotes, a line end.
-/

namespace Ramify.Csv.Dialect

variable {dialect : Dialect}

/-! ## What is open can be closed -/

/-- Some character has no part in the structure of a table. -/
theorem exists_ordinary (dialect : Dialect) : ∃ c, c ∉ dialect.structural := by
  by_contra hnone
  have hall : ∀ c, c ∈ dialect.structural := fun c => not_not.mp fun hc => hnone ⟨c, hc⟩
  have ha := hall 'a'
  have hb := hall 'b'
  have hc := hall 'c'
  simp only [structural, List.mem_cons, List.not_mem_nil, or_false] at ha hb hc
  grind

/-- The set of a node has a member. -/
theorem exists_member {set : SymbolSet Char} (h : .oneOf set ∈ dialect.nodes.toList) :
    ∃ c, set.contains c = true := by
  obtain ⟨c, hc⟩ := dialect.exists_ordinary
  have hquote : c ≠ dialect.quote := by
    rintro rfl
    simp [structural] at hc
  have hsingle : ∀ d : Char, ∃ c, (SymbolSet.of [d]).contains c = true := fun d => ⟨d, by simp⟩
  simp only [nodes, List.mem_cons, List.not_mem_nil, or_false, Node.oneOf.injEq, reduceCtorEq,
    false_or] at h
  rcases h with rfl | rfl | rfl | rfl | rfl | rfl
  · exact ⟨c, SymbolSet.contains_except.mpr hc⟩
  · exact hsingle dialect.quote
  · exact ⟨c, SymbolSet.contains_except.mpr (by simpa using hquote)⟩
  · exact hsingle dialect.quote
  · exact hsingle dialect.delimiter
  · exact hsingle '\n'

/-- The parts of series after the first: what is left of a bare cell and of a quoted one, a
further cell and further cells, and a line end. -/
theorem laterParts_eq (dialect : Dialect) :
    (dialect.nodes.toList.flatMap fun node => (node.series?.getD []).tail) =
      [2, 8, 9, 15, 17, 22] :=
  rfl

/-- A cell can always be written between quotes. -/
theorem cell_matchesAnywhere (dialect : Dialect) : dialect.table.MatchesAnywhere 12 := by
  have hquoted : dialect.table.MatchesAnywhere 10 := by
    refine .seq rfl fun part hpart => ?_
    simp only [List.mem_cons, List.not_mem_nil, or_false] at hpart
    rcases hpart with rfl | rfl | rfl
    · exact .symbol rfl
    · exact .star rfl
    · exact .symbol rfl
  have hcell : dialect.table.MatchesAnywhere 11 := hquoted.through rfl (.alt 1 rfl)
  exact hcell.through rfl .emit

theorem laterPart_matchesAnywhere {id : NodeId} (h : id ∈ [2, 8, 9, 15, 17, 22]) :
    dialect.table.MatchesAnywhere id := by
  simp only [List.mem_cons, List.not_mem_nil, or_false] at h
  rcases h with rfl | rfl | rfl | rfl | rfl | rfl
  · exact .star rfl
  · exact .star rfl
  · exact .symbol rfl
  · exact dialect.cell_matchesAnywhere.through rfl (.rule rfl)
  · exact .star rfl
  · have hfeed : dialect.table.MatchesAnywhere 20 := .symbol rfl
    exact hfeed.through rfl (.alt 0 rfl)

/-- Every node of the grammar of tables can be closed. -/
theorem closable {id : NodeId} {node : Node Char Token} (hn : dialect.nodes[id]? = some node) :
    node.Closable dialect.table := by
  have hmem : node ∈ dialect.nodes.toList := Array.mem_toList_iff.mpr (Array.mem_of_getElem? hn)
  refine ⟨fun parts hs part hpart => ?_, fun set hset => ?_⟩
  · refine laterPart_matchesAnywhere ?_
    rw [← dialect.laterParts_eq]
    exact List.mem_flatMap.mpr ⟨node, hmem, by rw [hs]; exact hpart⟩
  · exact exists_member (hset ▸ hmem)

/-! ## Beginnings of tables -/

/-- A text is the beginning of a table. -/
def Opens (dialect : Dialect) (text : List Char) : Prop :=
  ∃ rows whole, dialect.Renders rows whole ∧ text <+: whole

theorem Opens.mono {text longer : List Char} (h : dialect.Opens longer)
    (hbegins : text <+: longer) : dialect.Opens text := by
  obtain ⟨rows, whole, hrows, hopens⟩ := h
  exact ⟨rows, whole, hrows, hbegins.trans hopens⟩

theorem opens_iff_exists_derivation (hd : dialect.Distinct) {text : List Char} :
    dialect.Opens text ↔ ∃ more, Nonempty (Derivation dialect.table (text ++ more)
      dialect.table.start 0 (text ++ more).length) := by
  constructor
  · rintro ⟨rows, _, hrows, more, rfl⟩
    obtain ⟨tree, -⟩ := (exists_derivation_iff hd).mpr ⟨rows, hrows, rfl⟩
    exact ⟨more, ⟨tree⟩⟩
  · rintro ⟨more, ⟨tree⟩⟩
    obtain ⟨rows, hrows, -⟩ := (exists_derivation_iff hd).mp ⟨tree, rfl⟩
    exact ⟨rows, _, hrows, List.prefix_append text more⟩

/-- A text leaves a branch if and only if it is the beginning of a table. -/
theorem live_iff_opens (hd : dialect.Distinct) {text : List Char}
    (hlength : text.length ≤ maxCount) :
    ((Forest.new dialect.table .unlimited).takeAll text).forest.isHopeless = false ↔
      dialect.Opens text := by
  rw [opens_iff_exists_derivation hd]
  constructor
  · have hstart : dialect.table.Productive dialect.table.start := ⟨[], ⟨.of rfl (.star .done)⟩⟩
    exact Forest.exists_continuation_of_closable dialect.table_isBuilt hstart
      (fun _ _ _ hn => closable hn) hlength
  · rintro ⟨more, ⟨tree⟩⟩
    exact Forest.not_isHopeless_of_derivation dialect.table_isBuilt hlength tree

/-! ## Blame -/

/-- What a reader takes is the beginning of a table. -/
theorem opens_of_takeChars (hd : dialect.Distinct) {text : List Char} {reader : Reader}
    (h : ((Reader.ofGrammar dialect.table).takeChars text).toExcept = .ok reader) :
    text.length ≤ maxCount ∧ dialect.Opens text := by
  obtain ⟨hok, hforest, -⟩ := Reader.takeChars_eq_ok h
  have hlive := Reader.takeChars_live rfl h
  rw [hforest] at hlive
  have hlength : text.length ≤ maxCount := Forest.length_le_of_takeAll hok
  exact ⟨hlength, (live_iff_opens hd hlength).mp hlive⟩

/-- A character that a reader finds unexpected does not continue the beginning of a table
before it. -/
theorem exists_of_takeChars_eq_unexpected (hd : dialect.Distinct) {text : List Char} {found : Char}
    {offset : Nat} (h : ((Reader.ofGrammar dialect.table).takeChars text).toExcept =
      .error (.unexpected found offset)) :
    ∃ before after, text = before ++ found :: after ∧ offset = before.length ∧
      before.length < maxCount ∧ dialect.Opens before ∧ ¬ dialect.Opens (before ++ [found]) := by
  obtain ⟨before, after, htext, hoffset, hbefore, hok, hhopeless⟩ :=
    Reader.takeChars_eq_unexpected (.new dialect.table_isBuilt) rfl h
  have hzero : (Reader.ofGrammar dialect.table).forest.consumed = 0 := rfl
  rw [hzero, Nat.zero_add] at hoffset
  have hlength : (before ++ [found]).length ≤ maxCount := Forest.length_le_of_takeAll hok
  have hcount : before.length < maxCount := by
    rw [List.length_append, List.length_singleton] at hlength
    omega
  refine ⟨before, after, htext, hoffset, hcount, ?_, fun hopens => ?_⟩
  · exact (live_iff_opens hd (Nat.le_of_lt hcount)).mp hbefore
  · have hlive := (live_iff_opens hd hlength).mpr hopens
    exact Bool.false_ne_true (hlive.symm.trans hhopeless)

/-- A limit stops a reader only after as many characters as can be counted. -/
theorem opens_of_takeChars_eq_engine (hd : dialect.Distinct) {text : List Char} {fault : Fault}
    (h : ((Reader.ofGrammar dialect.table).takeChars text).toExcept = .error (.engine fault)) :
    fault = .tooManySymbols (maxCount + 1) maxCount ∧ maxCount < text.length ∧
      dialect.Opens (text.take maxCount) := by
  -- Characters that can be counted do not exceed a limit.
  have hcounted : ∀ {cs : List Char} {fault : Fault},
      ((Reader.ofGrammar dialect.table).takeChars cs).toExcept = .error (.engine fault) →
        maxCount < cs.length := by
    intro cs fault hstop
    by_contra hlength
    have hok := (Forest.exists_trees dialect.table_isBuilt (Nat.le_of_not_lt hlength)).1
    cases hok.symm.trans (Reader.takeChars_eq_engine hstop)
  have hgt := hcounted h
  have hfault := Forest.takeAll_new_of_gt dialect.table_isBuilt hgt
  cases hfault.symm.trans (Reader.takeChars_eq_engine h)
  refine ⟨rfl, hgt, ?_⟩
  rw [← List.take_append_drop maxCount text, Reader.takeChars_append] at h
  cases htaken : ((Reader.ofGrammar dialect.table).takeChars (text.take maxCount)).toExcept with
  | ok reader => exact (opens_of_takeChars hd htaken).2
  | error error =>
      rw [htaken] at h
      cases h
      have hlength := hcounted htaken
      rw [List.length_take] at hlength
      omega

/-- The beginning of a table that another character does not continue is the longest. -/
theorem isGreatest_opens {before : List Char} {found : Char} (hbefore : dialect.Opens before)
    (hfound : ¬ dialect.Opens (before ++ [found])) (after : List Char) :
    IsGreatest {n | n ≤ (before ++ found :: after).length ∧
      dialect.Opens ((before ++ found :: after).take n)} before.length := by
  refine ⟨⟨by simp, by rwa [List.take_left]⟩, ?_⟩
  rintro n ⟨hn, hopens⟩
  by_contra hlt
  obtain ⟨more, hmore⟩ := Nat.exists_eq_add_of_lt (Nat.lt_of_not_le hlt)
  rw [hmore, Nat.add_assoc, List.take_length_add_append, List.take_succ_cons] at hopens
  exact hfound (hopens.mono ⟨after.take more, by simp⟩)

/-- A new reader takes a text if and only if that is the beginning of a table.  Otherwise it
finds a character unexpected, which is the one after the longest part of the text that is the
beginning of a table.  It stops for another reason only after as many characters as can be
counted. -/
theorem take_blames_first (hd : dialect.Distinct) (text : String) :
    ∃ reader notes, dialect.reader = .ok (reader, notes) ∧
      (text.length ≤ maxCount ∨ ¬ dialect.Opens (text.toList.take maxCount) →
        ((reader.take text).result = .ok () ↔ dialect.Opens text.toList) ∧
        (¬ dialect.Opens text.toList → ∃ found offset,
          (reader.take text).result = .error (.unexpected found offset) ∧
          IsGreatest {n | n ≤ text.length ∧ dialect.Opens (text.toList.take n)} offset ∧
          text.toList[offset]? = some found)) ∧
      (maxCount < text.length → dialect.Opens (text.toList.take maxCount) →
        (reader.take text).result =
          .error (.engine (.tooManySymbols (maxCount + 1) maxCount))) := by
  refine ⟨_, _, reader_of_grammar dialect.grammar_eq, ?_⟩
  rw [Reader.take, Reader.Step.result_eq, ← String.length_toList]
  cases htaken : ((Reader.ofGrammar dialect.table).takeChars text.toList).toExcept with
  | ok reader =>
      obtain ⟨hlength, hopens⟩ := opens_of_takeChars hd htaken
      refine ⟨fun _ => ⟨⟨fun _ => hopens, fun _ => rfl⟩, fun hnot => absurd hopens hnot⟩, ?_⟩
      exact fun hgt => absurd hlength (Nat.not_le_of_lt hgt)
  | error error =>
      cases error with
      | refused refusal => exact absurd htaken Reader.takeChars_ne_refused
      | unexpected found offset =>
          obtain ⟨before, after, htext, rfl, hcount, hbefore, hfound⟩ :=
            exists_of_takeChars_eq_unexpected hd htaken
          have hgreatest := isGreatest_opens hbefore hfound after
          rw [htext]
          refine ⟨fun _ => ⟨⟨?_, fun hopens => ?_⟩, fun _ => ?_⟩, fun hgt hopens => ?_⟩
          · rintro ⟨⟩
          · exact absurd (hopens.mono ⟨after, by simp⟩) hfound
          · exact ⟨found, before.length, rfl, hgreatest, by simp⟩
          · exact absurd (hgreatest.2 ⟨Nat.le_of_lt hgt, hopens⟩) (Nat.not_le_of_lt hcount)
      | engine fault =>
          obtain ⟨rfl, hgt, hopens⟩ := opens_of_takeChars_eq_engine hd htaken
          refine ⟨fun h => ?_, fun _ _ => rfl⟩
          rcases h with hle | hnot
          · exact absurd hgt (Nat.not_lt_of_le hle)
          · exact absurd hopens hnot

/-- After a cell between quotes a reader of the default dialect does not take a letter, and
the four characters up to it are the longest part of the text that begins a table. -/
theorem take_blames_first_closed_cell : Distinct {} ∧
    ∃ reader notes, Dialect.reader {} = .ok (reader, notes) ∧
      (reader.take "\"ab\"c\n").result = .error (.unexpected 'c' 4) ∧
      IsGreatest {n | n ≤ 6 ∧ Opens {} (['"', 'a', 'b', '"', 'c', '\n'].take n)} 4 := by
  obtain ⟨reader, notes, hreader, hblame, -⟩ := take_blames_first distinct_default "\"ab\"c\n"
  obtain ⟨hiff, hunexpected⟩ := hblame (.inl (by decide))
  have hresult : (reader.take "\"ab\"c\n").result = .error (.unexpected 'c' 4) := by
    cases (reader_of_grammar (grammar_eq {})).symm.trans hreader
    decide +kernel
  have hnot : ¬ Opens {} "\"ab\"c\n".toList := by
    intro hopens
    cases hresult.symm.trans (hiff.mpr hopens)
  obtain ⟨found, offset, hfound, hgreatest, -⟩ := hunexpected hnot
  cases hresult.symm.trans hfound
  exact ⟨distinct_default, reader, notes, hreader, hresult, hgreatest⟩

end Ramify.Csv.Dialect
