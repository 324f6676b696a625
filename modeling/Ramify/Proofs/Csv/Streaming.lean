import Ramify.Proofs.Csv.Phase
import Ramify.Proofs.Csv.Reader
import Ramify.Proofs.Depth
import Ramify.Proofs.Lifecycle
import Ramify.Proofs.Limits

/-!
# Reading a table takes bounded memory

While a table is read there are at most two branches, as no phase has more, and no branch has
more than eight frames: a symbol inside a quoted cell is awaited within the loop over the
content, the quoted cell, the emission of the cell, the cells of the record, the fold, the
record and the table (`Dialect.state_bounded`).

Where a table may end is read off the phase too.  A line feed can follow every phase that a
table can be in.  It ends a record, and the table is accepted, unless a quote is open, and
quotes are open just if their number so far is odd (`Dialect.close_of_quotes`).
-/

namespace Ramify.Csv

/-! ## Branches and frames -/

namespace Dialect

variable {dialect : Dialect} {text : List Char}

/-- The frames that a node of the grammar of tables and its parts need. -/
def room (id : NodeId) : Nat :=
  [0, 1, 2, 2, 1, 1, 1, 1, 2, 1, 3, 3, 4, 4, 1, 4, 4, 5, 5, 6, 1, 1, 1, 7, 7, 8].getD id 0

theorem budget_table (dialect : Dialect) : dialect.table.Budget room := by
  have hall : (dialect.nodes.toList.zipIdx.all fun placed =>
      (!placed.1.consumes || decide (1 ≤ room placed.2)) &&
        (dialect.table.opens placed.1).all fun entry =>
          decide (room entry.1 + entry.2 ≤ room placed.2)) = true :=
    rfl
  have hnode : ∀ {id : NodeId} {node : Node Char Token}, dialect.table.nodes[id]? = some node →
      (node.consumes = true → 1 ≤ room id) ∧
        ∀ entry ∈ dialect.table.opens node, room entry.1 + entry.2 ≤ room id := by
    intro id node hn
    have hmem : (node, id) ∈ dialect.nodes.toList.zipIdx :=
      List.mem_zipIdx_iff_getElem?.mpr (by rw [Array.getElem?_toList]; exact hn)
    simpa [imp_iff_not_or] using List.all_eq_true.mp hall _ hmem
  exact ⟨fun hn => (hnode hn).1, fun hn hp => (hnode hn).2 _ hp⟩

/-- A parse that has the branches of a phase holds two at most. -/
theorem size_le_of_shapes_eq {f : Forest Char Token} {phase : Phase}
    (hshapes : f.shapes = phase.shapes) : f.size ≤ 2 := by
  have hlength := phase.length_shapes_le
  rwa [← hshapes, Forest.shapes, List.length_map] at hlength

section Limited

variable {limits : Limits}

/-- A parse under any limits holds two branches at most, as it holds those of the parse without
limits, or none. -/
theorem Distinct.size_le_of_limits (hd : dialect.Distinct)
    (hsymbols : limits.symbols ≤ maxCount) (text : List Char) :
    ((Forest.new dialect.table limits).takeAll text).forest.size ≤ 2 := by
  cases hresult : ((Forest.new dialect.table limits).takeAll text).result with
  | error reason =>
      obtain ⟨hnone, -⟩ := (Forest.Lives.new dialect.table limits).takeAll_eq_error hresult
      rw [Forest.size, hnone]
      exact Nat.zero_le 2
  | ok _ =>
      have hroom : (Forest.new dialect.table .unlimited).consumed + text.length ≤ maxCount :=
        (Nat.zero_add _).trans_le ((Forest.length_le_of_takeAll hresult).trans hsymbols)
      have hnew := Forest.Abides.new dialect.table_isBuilt limits
      obtain ⟨hok, hsame, -, -⟩ := hnew.takeAll hroom hresult
      have hforest : ((Forest.new dialect.table limits).takeAll text).forest = _ := hsame
      rw [hforest]
      exact size_le_of_shapes_eq (hd.shapes_eq hok)

/-- Limits that leave room for two branches and eight frames do not stop a parse at a character
that can be counted. -/
theorem Distinct.cut_eq_none (hd : dialect.Distinct) (hbranches : 2 ≤ limits.branches)
    (hdepth : 8 ≤ limits.depth) (hsymbols : limits.symbols = maxCount)
    (hok : ((Forest.new dialect.table .unlimited).takeAll text).result = .ok ())
    (hlength : text.length < maxCount) (c : Char) :
    ((Forest.new dialect.table .unlimited).takeAll text).forest.cut limits c = none := by
  have hreach : Forest.Reachable dialect.table .unlimited _ := .takeAll .new text
  obtain ⟨hfree, hcount, -⟩ := (Forest.Free.new dialect.table_isBuilt).takeAll_of_ok hok
  rw [show (Forest.new dialect.table .unlimited).consumed = 0 from rfl, Nat.zero_add] at hcount
  have hshapes := hd.shapes_advanced hfree hreach.grammar_eq.1 (hd.shapes_eq hok) c
  have hsize := size_le_of_shapes_eq hshapes
  rw [← (hfree.take (hcount ▸ hlength) c).2] at hsize
  have hcrowd := mt Limits.isExceeded_iff.mp fun h => Nat.not_lt_of_le (hsize.trans hbranches) h.1
  rw [Forest.cut, if_neg (by omega), if_neg, if_neg hcrowd]
  exact hreach.not_overruns dialect.table_isBuilt dialect.budget_table hdepth _

/-- Nor do they stop it at any other, and the parse is the one without limits. -/
theorem Distinct.takeAll_ok (hd : dialect.Distinct) (hbranches : 2 ≤ limits.branches)
    (hdepth : 8 ≤ limits.depth) (hsymbols : limits.symbols = maxCount)
    (hlength : text.length ≤ maxCount) :
    let u := ((Forest.new dialect.table .unlimited).takeAll text).forest
    ((Forest.new dialect.table limits).takeAll text).result = .ok () ∧
      ((Forest.new dialect.table limits).takeAll text).forest = u.withLimits limits ∧
      u.Abides limits := by
  have hnew := Forest.Abides.new dialect.table_isBuilt limits
  have hroom {text : List Char} (hlength : text.length ≤ maxCount) :
      (Forest.new dialect.table .unlimited).consumed + text.length ≤ maxCount :=
    (Nat.zero_add _).trans_le hlength
  have hresult : ((Forest.new dialect.table limits).takeAll text).result = .ok () := by
    induction text using List.reverseRecOn with
    | nil => rfl
    | append_singleton text c ih =>
        rw [List.length_append, List.length_singleton] at hlength
        have hbefore := ih (Nat.le_of_succ_le hlength)
        obtain ⟨hok, hsame, hcount, habides⟩ :=
          hnew.takeAll (hroom (Nat.le_of_succ_le hlength)) hbefore
        have hforest : ((Forest.new dialect.table limits).takeAll text).forest = _ := hsame
        have hzero : (Forest.new dialect.table .unlimited).consumed = 0 := rfl
        rw [hzero, Nat.zero_add] at hcount
        have hcut := hd.cut_eq_none hbranches hdepth hsymbols hok hlength c
        have htake := habides.take_of_not_cut (hcount ▸ hlength) hcut
        rw [(Forest.takeAll_append hbefore).1, hforest, (Forest.takeAll_cons htake.1).1]
        rfl
  obtain ⟨-, hsame, -, habides⟩ := hnew.takeAll (hroom hlength) hresult
  exact ⟨hresult, hsame, habides⟩

/-- What cannot be counted stops it. -/
theorem Distinct.takeAll_of_gt (hd : dialect.Distinct) (hbranches : 2 ≤ limits.branches)
    (hdepth : 8 ≤ limits.depth) (hsymbols : limits.symbols = maxCount)
    (hgt : maxCount < text.length) :
    ((Forest.new dialect.table limits).takeAll text).result =
      .error (.tooManySymbols (maxCount + 1) maxCount) := by
  obtain ⟨before, c, after, rfl, hlength⟩ :
      ∃ before c after, text = before ++ c :: after ∧ before.length = maxCount :=
    ⟨text.take maxCount, text[maxCount], text.drop (maxCount + 1), by simp, by simp; omega⟩
  obtain ⟨hok, hsame, habides⟩ := hd.takeAll_ok hbranches hdepth hsymbols (Nat.le_of_eq hlength)
  have htaken := (Forest.exists_trees dialect.table_isBuilt (Nat.le_of_eq hlength)).1
  have hcount := ((Forest.Free.new dialect.table_isBuilt).takeAll_of_ok htaken).2.1
  rw [show (Forest.new dialect.table .unlimited).consumed = 0 from rfl, Nat.zero_add,
    hlength] at hcount
  rw [(Forest.takeAll_append hok).1, hsame]
  generalize ((Forest.new dialect.table .unlimited).takeAll before).forest = u at hcount habides
  have hfull : (u.withLimits limits).limits.symbols ≤ (u.withLimits limits).consumed :=
    Nat.le_of_eq (hsymbols.trans hcount.symm)
  have hrunning : (u.withLimits limits).fault = none := habides.running
  rw [Forest.takeAll_cons_of_full hrunning hfull]
  simp only [Forest.withLimits, hcount, hsymbols]

end Limited

/-- While a table is read there are never more than two branches, and no branch that the parse
comes across is deeper than eight frames.  Limits that leave room for these stop no parse, unless
it has more characters than can be counted. -/
theorem state_bounded (hd : dialect.Distinct) :
    ∃ g, dialect.grammar = .ok g ∧ ∀ (limits : Limits) (text : List Char),
      let fed := (Forest.new g limits).takeAll text
      (limits.symbols ≤ maxCount → fed.forest.size ≤ 2) ∧
      (∀ next, ∀ b ∈ fed.forest.branches, ∀ b', (fed.forest.cursor next).Visits b b' →
        b'.depth ≤ 8) ∧
      (2 ≤ limits.branches → 8 ≤ limits.depth → limits.symbols = maxCount →
        (text.length ≤ maxCount →
          fed.result = .ok () ∧ ∀ fault, fed.forest.close.result ≠ .error (.aborted fault)) ∧
        (maxCount < text.length →
          fed.result = .error (.tooManySymbols (maxCount + 1) maxCount))) := by
  refine ⟨_, dialect.grammar_eq, fun limits text => ?_⟩
  intro fed
  refine ⟨fun hsymbols => hd.size_le_of_limits hsymbols text, fun next b hb b' hvisit => ?_, ?_⟩
  · have hreach : Forest.Reachable dialect.table limits fed.forest := .takeAll .new text
    exact hreach.depth_le dialect.table_isBuilt dialect.budget_table hb hvisit
  · intro hbranches hdepth hsymbols
    refine ⟨fun hlength => ?_, fun hgt => ?_⟩
    · obtain ⟨hok, hsame, habides⟩ := hd.takeAll_ok hbranches hdepth hsymbols hlength
      refine ⟨hok, fun fault => ?_⟩
      have hreach : Forest.Reachable dialect.table .unlimited _ := .takeAll .new text
      rw [hsame, habides.close, if_neg (hreach.not_overruns dialect.table_isBuilt
        dialect.budget_table hdepth none)]
      obtain ⟨trees, -, -, hclose⟩ := (Forest.exists_trees dialect.table_isBuilt hlength).2
      rw [hclose]
      exact Forest.verdict_ne_aborted
    · exact hd.takeAll_of_gt hbranches hdepth hsymbols hgt

/-- With room for two branches and eight frames and no more, a reader of the default dialect is
not stopped within quotes. -/
theorem state_bounded_quoted : Distinct {} ∧
    ∃ g, Dialect.grammar {} = .ok g ∧
      let fed := (Forest.new g ⟨8, 2, maxCount⟩).takeAll ['a', ',', '\x22', 'b', '\x22']
      fed.result = .ok () ∧ fed.forest.size ≤ 2 := by
  obtain ⟨g, hg, hbounded⟩ := state_bounded distinct_default
  obtain ⟨hsize, -, hlimits⟩ := hbounded ⟨8, 2, maxCount⟩ ['a', ',', '\x22', 'b', '\x22']
  exact ⟨distinct_default, g, hg, ((hlimits (Nat.le_refl 2) (Nat.le_refl 8) rfl).1 (by decide)).1,
    hsize (Nat.le_refl maxCount)⟩

end Dialect

/-! ## Quotes -/

namespace Phase

variable {phase : Phase} {further : Bool} {c : Char}

/-- Whether a quote is open. -/
def isQuoted : Phase → Bool
  | opened _ | quoted _ => true
  | start | line | delimited | bare _ | closing _ | «return» | dead => false

/-- No quote follows a cell, and none is open after one. -/
theorem isQuoted_afterCell (h : afterCell c ≠ dead) :
    c ≠ '\x22' ∧ (afterCell c).isQuoted = false := by
  unfold afterCell at h ⊢
  split_ifs at h ⊢ with hdelimiter hfeed hreturn
  · simp [hdelimiter, isQuoted]
  · simp [hfeed, isQuoted]
  · simp [hreturn, isQuoted]
  · exact absurd rfl h

/-- No quote is in a bare cell, and none is open after one. -/
theorem isQuoted_inBare (h : inBare further c ≠ dead) :
    c ≠ '\x22' ∧ (inBare further c).isQuoted = false := by
  unfold inBare at h ⊢
  split_ifs at h ⊢ with hends hquote
  · exact isQuoted_afterCell h
  · exact absurd rfl h
  · exact ⟨hquote, rfl⟩

/-- A quote at the beginning of a cell opens. -/
theorem isQuoted_atCell (h : atCell further c ≠ dead) :
    (atCell further c).isQuoted = decide (c = '\x22') := by
  unfold atCell at h ⊢
  split_ifs at h ⊢ with hquote
  · simp [hquote, isQuoted]
  · simp [hquote, (isQuoted_inBare h).2]

/-- A quote opens what was closed or closes what was open, and nothing else does. -/
theorem isQuoted_next (h : phase.next c ≠ dead) :
    (phase.next c).isQuoted = (phase.isQuoted != decide (c = '\x22')) := by
  cases phase with
  | start | line | delimited =>
      simp only [next] at h ⊢
      rw [isQuoted_atCell h]
      simp [isQuoted]
  | bare further =>
      simp only [next] at h ⊢
      obtain ⟨hquote, hclosed⟩ := isQuoted_inBare h
      rw [hclosed]
      simp [hquote, isQuoted]
  | opened further | quoted further =>
      simp only [next]
      split_ifs with hquote
      · simp [hquote, isQuoted]
      · simp [hquote, isQuoted]
  | closing further =>
      simp only [next] at h ⊢
      split_ifs at h ⊢ with hquote
      · simp [hquote, isQuoted]
      · rw [(isQuoted_afterCell h).2]
        simp [hquote, isQuoted]
  | «return» =>
      simp only [next] at h ⊢
      split_ifs at h ⊢ with hfeed
      · simp [hfeed, isQuoted]
      · exact absurd rfl h
  | dead => exact absurd rfl h

/-- Where a table stands before its first character and after a line feed. -/
def EndsLine (phase : Phase) : Prop :=
  phase = start ∨ phase = line ∨ ∃ further, phase = quoted further

/-- A line feed can follow all that a table begins with. -/
theorem endsLine_next (h : phase ≠ dead) : (phase.next '\n').EndsLine := by
  cases phase with
  | start | line | delimited | bare | closing | «return» => exact .inr (.inl rfl)
  | opened further | quoted further => exact .inr (.inr ⟨further, rfl⟩)
  | dead => exact absurd rfl h

theorem EndsLine.ne_dead (h : phase.EndsLine) : phase ≠ dead := by
  rcases h with rfl | rfl | ⟨further, rfl⟩
  all_goals nofun

/-- There is one complete branch before a line, and none where a quote is open. -/
theorem EndsLine.length_finals (h : phase.EndsLine) :
    phase.parse.finals.length = if phase.isQuoted then 0 else 1 := by
  rcases h with rfl | rfl | ⟨further, rfl⟩
  · decide +kernel
  · decide +kernel
  · cases further with
    | false => decide +kernel
    | true => decide +kernel

/-- Nothing mends a text that no table begins with. -/
theorem ne_dead_of_next (h : phase.next c ≠ dead) : phase ≠ dead := by
  rintro rfl
  exact h rfl

end Phase

namespace Dialect

variable {dialect : Dialect} {text : List Char}

theorem ne_dead_of_append {more : List Char} (h : dialect.phase (text ++ more) ≠ .dead) :
    dialect.phase text ≠ .dead := by
  induction more using List.reverseRecOn with
  | nil => rwa [List.append_nil] at h
  | append_singleton more c ih =>
      rw [← List.append_assoc, phase_append_singleton] at h
      exact ih (Phase.ne_dead_of_next h)

/-- A quote is open in the beginning of a table just if the number of quotes is odd. -/
theorem isQuoted_phase (h : dialect.phase text ≠ .dead) :
    (dialect.phase text).isQuoted = decide (¬ Even (text.count dialect.quote)) := by
  induction text using List.reverseRecOn with
  | nil => rfl
  | append_singleton text c ih =>
      rw [phase_append_singleton] at h ⊢
      have hquote : (decide (dialect.translate c = '\x22')) = decide (c = dialect.quote) :=
        decide_eq_decide.mpr (dialect.isSourceOf_quote c).symm
      rw [Phase.isQuoted_next h, ih (Phase.ne_dead_of_next h), List.count_append,
        List.count_singleton, hquote]
      by_cases hc : c = dialect.quote
      · simp [hc, Nat.even_add_one, -Nat.not_even_iff_odd]
      · simp [hc]

/-- The text that a reader closes ends a line, or within quotes. -/
theorem Distinct.endsLine_lineEnded (hd : dialect.Distinct) (h : dialect.phase text ≠ .dead) :
    (dialect.phase (lineEnded text)).EndsLine := by
  have hfeed : dialect.translate '\n' = '\n' := (hd.isSourceOf_line (by decide) '\n').mp rfl
  unfold lineEnded
  split_ifs with hended
  · rcases hended with rfl | hlast
    · exact .inl rfl
    · obtain ⟨before, rfl⟩ := List.getLast?_eq_some_iff.mp hlast
      rw [phase_append_singleton, hfeed] at h ⊢
      exact Phase.endsLine_next (Phase.ne_dead_of_next h)
  · rw [phase_append_singleton, hfeed]
    exact Phase.endsLine_next h

theorem Distinct.count_lineEnded (hd : dialect.Distinct) (text : List Char) :
    (lineEnded text).count dialect.quote = text.count dialect.quote := by
  have hne : '\n' ≠ dialect.quote := fun h => hd.quote_notMem (h ▸ by simp)
  unfold lineEnded
  split_ifs
  · rfl
  · simp [hne]

/-! ## The end of a table -/

/-- A parse leaves no branch just if its text has led to no phase of a table. -/
theorem Distinct.isHopeless_iff (hd : dialect.Distinct)
    (hok : ((Forest.new dialect.table .unlimited).takeAll text).result = .ok ()) :
    ((Forest.new dialect.table .unlimited).takeAll text).forest.isHopeless = true ↔
      dialect.phase text = .dead := by
  rw [← Phase.shapes_eq_nil_iff, ← hd.shapes_eq hok, Forest.shapes, List.map_eq_nil_iff,
    Forest.isHopeless, List.isEmpty_iff]

/-- A reader takes a text that has led to a phase of a table, unless a limit stops the parse. -/
theorem Distinct.takeChars_cases (hd : dialect.Distinct) (hlive : dialect.phase text ≠ .dead) :
    (∃ reader, ((Reader.ofGrammar dialect.table).takeChars text).toExcept = .ok reader) ∨
      ∃ fault, ((Reader.ofGrammar dialect.table).takeChars text).toExcept =
          .error (.engine fault) ∧
        ((Forest.new dialect.table .unlimited).takeAll text).result = .error fault := by
  cases htaken : ((Reader.ofGrammar dialect.table).takeChars text).toExcept with
  | ok reader => exact .inl ⟨reader, rfl⟩
  | error error =>
      cases error with
      | unexpected found offset =>
          obtain ⟨before, after, rfl, -, -, hbefore, hhopeless⟩ :=
            Reader.takeChars_eq_unexpected (.new dialect.table_isBuilt) rfl htaken
          rw [show before ++ found :: after = (before ++ [found]) ++ after by simp] at hlive
          exact absurd ((hd.isHopeless_iff hbefore).mp hhopeless) (ne_dead_of_append hlive)
      | refused refusal => exact absurd htaken Reader.takeChars_ne_refused
      | engine fault => exact .inr ⟨fault, rfl, Reader.takeChars_eq_engine htaken⟩

/-- The parse of a text is as complete as that of the sample of its phase. -/
theorem Distinct.length_finals (hd : dialect.Distinct)
    (hok : ((Forest.new dialect.table .unlimited).takeAll text).result = .ok ()) :
    ((Forest.new dialect.table .unlimited).takeAll text).forest.finals.length =
      (dialect.phase text).parse.finals.length := by
  have hfree := ((Forest.Free.new dialect.table_isBuilt).takeAll_of_ok hok).1
  have hnew : Forest.Reachable dialect.table .unlimited _ := .new
  have hgrammar := (hnew.takeAll text).grammar_eq.1
  refine Forest.length_finals (hd.translated_parse hgrammar _) hfree (Phase.parse_free _) ?_
  rw [hd.shapes_eq hok, (Phase.witnessed _).shapes_eq]

/-- Closing accepts a table just if every quote in it is closed. -/
theorem Distinct.close_lineEnded (hd : dialect.Distinct) (hlive : dialect.phase text ≠ .dead)
    (hlength : (lineEnded text).length ≤ maxCount) :
    let f := ((Forest.new dialect.table .unlimited).takeAll (lineEnded text)).forest
    (Even (text.count dialect.quote) → ∃ tokens, f.close.result = .ok tokens) ∧
      (¬ Even (text.count dialect.quote) →
        f.close.result = .error (.mismatch (lineEnded text).length)) := by
  intro f
  have hok := (Forest.exists_trees dialect.table_isBuilt hlength).1
  obtain ⟨hfree, hcount, -⟩ := (Forest.Free.new dialect.table_isBuilt).takeAll_of_ok hok
  have hclose : f.close.result = Forest.verdict (lineEnded text).length
      (f.finals.map Branch.tokens) := by
    rw [Forest.close_of_room hfree.running (hfree.overrun_eq_none _), hcount,
      show (Forest.new dialect.table .unlimited).consumed = 0 from rfl, Nat.zero_add]
  have hends := hd.endsLine_lineEnded hlive
  have hfinals := hd.length_finals hok
  rw [hends.length_finals, isQuoted_phase hends.ne_dead, hd.count_lineEnded] at hfinals
  rw [hclose]
  constructor
  · intro heven
    simp only [heven, not_true, decide_false, Bool.false_eq_true, if_false] at hfinals
    obtain ⟨b, hb⟩ := List.length_eq_one_iff.mp hfinals
    exact ⟨b.tokens, congrArg (Forest.verdict _ ∘ List.map Branch.tokens) hb⟩
  · intro hodd
    simp only [hodd, not_false_iff, decide_true, if_true] at hfinals
    exact congrArg (Forest.verdict _ ∘ List.map Branch.tokens) (List.length_eq_zero_iff.mp hfinals)

/-- A reader takes the chunks that the reader over the table takes. -/
theorem exists_takeChunks {reader : Reader} {notes : List Note}
    (hreader : dialect.reader = .ok (reader, notes)) (chunks : List String)
    (h : ((Reader.ofGrammar dialect.table).takeChunks chunks).isOk = true) :
    ∃ fed, reader.takeChunks chunks = .ok fed := by
  cases (reader_of_grammar dialect.grammar_eq).symm.trans hreader
  cases hfed : (Reader.ofGrammar dialect.table).takeChunks chunks with
  | ok fed => exact ⟨fed, rfl⟩
  | error error =>
      rw [hfed] at h
      cases h

/-- Closing a reader that has taken a text, in whatever chunks, gives records if the number of
quotes in it is even, and otherwise comes to a mismatch.  The line feed that it supplies is
never unexpected, and the table is not ambiguous; a limit is exceeded only if the line feed
cannot be counted. -/
theorem close_of_quotes (hd : dialect.Distinct) :
    ∃ reader notes, dialect.reader = .ok (reader, notes) ∧
      ∀ chunks fed, reader.takeChunks chunks = .ok fed →
        let text := chunks.flatMap String.toList
        ((lineEnded text).length ≤ maxCount →
          (Even (text.count dialect.quote) → ∃ rows, fed.close.1 = .ok rows) ∧
          (¬ Even (text.count dialect.quote) →
            fed.close.1 = .error (.refused (.mismatch (lineEnded text).length)))) ∧
        (maxCount < (lineEnded text).length →
          fed.close.1 = .error (.engine (.tooManySymbols (maxCount + 1) maxCount))) := by
  refine ⟨_, _, reader_of_grammar dialect.grammar_eq, fun chunks fed hfed => ?_⟩
  intro text
  rw [Reader.takeChunks_eq] at hfed
  obtain ⟨hok, hforest, -⟩ := Reader.takeChars_eq_ok hfed
  have hlive : dialect.phase text ≠ .dead := by
    have hopen := Reader.takeChars_live rfl hfed
    rw [hforest] at hopen
    intro hdead
    exact Bool.false_ne_true (hopen.symm.trans ((hd.isHopeless_iff hok).mpr hdead))
  have hclose := Reader.takeChars_close (Reader.ofGrammar dialect.table) rfl text
  rw [hfed] at hclose
  change fed.close.1 = _ at hclose
  rcases hd.takeChars_cases (hd.endsLine_lineEnded hlive).ne_dead with
    ⟨ended, hended⟩ | ⟨fault, hended, hfault⟩
  · have htaken := (Reader.takeChars_eq_ok hended).1
    have hlength := Forest.length_le_of_takeAll htaken
    rw [hclose, hended]
    change (_ → (_ → ∃ rows, Reader.conclusion ended.forest.close.result = .ok rows) ∧
      (_ → Reader.conclusion ended.forest.close.result = _)) ∧ _
    rw [(Reader.takeChars_eq_ok hended).2.1]
    obtain ⟨heven, hodd⟩ := hd.close_lineEnded hlive hlength
    refine ⟨fun _ => ⟨fun h => ?_, fun h => conclusion_eq_refused_iff.mpr (hodd h)⟩, ?_⟩
    · obtain ⟨tokens, htokens⟩ := heven h
      exact ⟨records tokens, conclusion_eq_ok_iff.mpr ⟨tokens, htokens, rfl⟩⟩
    · exact fun hgt => absurd hlength (Nat.not_le_of_lt hgt)
  · rw [hclose, hended]
    refine ⟨fun hlength => ?_, fun hgt => ?_⟩
    · have htaken := (Forest.exists_trees dialect.table_isBuilt hlength).1
      cases htaken.symm.trans hfault
    · cases hfault.symm.trans (Forest.takeAll_new_of_gt dialect.table_isBuilt hgt)
      rfl

/-- A table is read whose last line lacks its line feed after a carriage return, and one whose
last quote is open is not. -/
theorem close_of_quotes_chunks : Distinct {} ∧
    ∃ reader notes, Dialect.reader {} = .ok (reader, notes) ∧
      (∃ fed rows, reader.takeChunks ["a,\"x\"", "\"\"\r"] = .ok fed ∧
        fed.close.1 = .ok rows) ∧
      ∃ fed, reader.takeChunks ["a,\"x\"", "\"\r\n"] = .ok fed ∧
        fed.close.1 = .error (.refused (.mismatch 8)) := by
  obtain ⟨reader, notes, hreader, hclose⟩ := close_of_quotes distinct_default
  refine ⟨distinct_default, reader, notes, hreader, ?_, ?_⟩
  · obtain ⟨fed, hfed⟩ := exists_takeChunks hreader ["a,\"x\"", "\"\"\r"]
      (by decide +kernel)
    obtain ⟨rows, hrows⟩ := ((hclose _ fed hfed).1 (by decide)).1 (by decide)
    exact ⟨fed, rows, hfed, hrows⟩
  · obtain ⟨fed, hfed⟩ := exists_takeChunks hreader ["a,\"x\"", "\"\r\n"]
      (by decide +kernel)
    exact ⟨fed, hfed, ((hclose _ fed hfed).1 (by decide)).2 (by decide)⟩

end Dialect

end Ramify.Csv
