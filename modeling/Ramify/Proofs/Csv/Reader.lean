import Ramify.Csv.Reader
import Ramify.Proofs.Csv.Rendering
import Ramify.Proofs.Exactness

/-!
# A reader inverts the format

A reader that takes chunks takes the characters of all of them, and closing it supplies the
line feed that is missing (`Dialect.read_eq`).  It gives up as soon as no branch is left,
which changes nothing: a parse without branches is never accepted.

So a table is read if and only if the parse of all its characters is accepted.  As no text
has two derivations, and the grammar reads the renderings, a text is read as the records
that it renders, and no text is ambiguous.
-/

namespace Ramify

namespace Csv

/-! ## Taking chunks -/

namespace Reader

/-- The reader that a step leaves, if it did not end in an error. -/
def Step.toExcept (step : Step) : Except Error Reader :=
  step.result.map fun _ => step.reader

theorem Step.result_eq (step : Step) : step.result = step.toExcept.map fun _ => () := by
  rw [toExcept]
  cases step.result with
  | error error => rfl
  | ok _ => rfl

/-- Takes chunks one after the other, up to the first that is refused. -/
def takeChunks (reader : Reader) : List String → Except Error Reader
  | [] => .ok reader
  | chunk :: chunks => (reader.take chunk).toExcept >>= (takeChunks · chunks)

variable {reader reader' : Reader}

theorem takeChars_append (reader : Reader) (cs more : List Char) :
    (reader.takeChars (cs ++ more)).toExcept =
      (reader.takeChars cs).toExcept >>= fun reader => (reader.takeChars more).toExcept := by
  induction cs generalizing reader with
  | nil => rfl
  | cons c cs ih =>
      simp only [List.cons_append, takeChars]
      split
      · rfl
      · split
        · rfl
        · exact ih _

/-- It does not matter how a text is cut into chunks. -/
theorem takeChunks_eq (reader : Reader) (chunks : List String) :
    reader.takeChunks chunks = (reader.takeChars (chunks.flatMap String.toList)).toExcept := by
  induction chunks generalizing reader with
  | nil => rfl
  | cons chunk chunks ih =>
      rw [takeChunks, List.flatMap_cons, takeChars_append, take]
      exact congrArg _ (funext fun reader => ih reader)

/-- A reader that takes characters is led to the forest that takes them. -/
theorem takeChars_eq_ok {cs : List Char} (h : (reader.takeChars cs).toExcept = .ok reader') :
    (reader.forest.takeAll cs).result = .ok () ∧
      reader'.forest = (reader.forest.takeAll cs).forest ∧
      reader'.last = cs.getLast?.or reader.last := by
  induction cs generalizing reader with
  | nil =>
      cases h
      exact ⟨rfl, rfl, rfl⟩
  | cons c cs ih =>
      rw [takeChars] at h
      split at h
      · cases h
      next hok =>
        split at h
        · cases h
        · obtain ⟨hresult, hforest, hlast⟩ := ih h
          refine ⟨?_, ?_, ?_⟩
          · rw [(Forest.takeAll_cons hok).1]
            exact hresult
          · rw [(Forest.takeAll_cons hok).2]
            exact hforest
          · rw [hlast, List.getLast?_cons]
            cases cs.getLast? with
            | none => rfl
            | some d => rfl

/-- A reader that has taken characters can go on. -/
theorem takeChars_live {cs : List Char} (hlive : reader.forest.isHopeless = false)
    (h : (reader.takeChars cs).toExcept = .ok reader') : reader'.forest.isHopeless = false := by
  induction cs generalizing reader with
  | nil =>
      cases h
      exact hlive
  | cons c cs ih =>
      rw [takeChars] at h
      split at h
      · cases h
      · split at h
        · cases h
        next hrest => exact ih (Bool.eq_false_iff.mpr hrest) h

/-- A character is unexpected if it leaves no branch of a parse that had one. -/
theorem takeChars_eq_unexpected {cs : List Char} {found : Char} {offset : Nat}
    (hf : reader.forest.Free) (hlive : reader.forest.isHopeless = false)
    (h : (reader.takeChars cs).toExcept = .error (.unexpected found offset)) :
    ∃ before after, cs = before ++ found :: after ∧
      offset = reader.forest.consumed + before.length ∧
      (reader.forest.takeAll before).forest.isHopeless = false ∧
      (reader.forest.takeAll (before ++ [found])).result = .ok () ∧
      (reader.forest.takeAll (before ++ [found])).forest.isHopeless = true := by
  induction cs generalizing reader with
  | nil => cases h
  | cons c cs ih =>
      rw [takeChars] at h
      split at h
      · cases h
      next hok =>
        have hforest := (Forest.take_eq_ok hok).2
        split at h
        next hhopeless =>
          cases h
          refine ⟨[], cs, rfl, ?_, hlive, ?_, ?_⟩
          · rw [hforest]
            rfl
          · exact (Forest.takeAll_cons hok).1
          · rw [List.nil_append, (Forest.takeAll_cons hok).2]
            exact hhopeless
        next hrest =>
          have hfree : (reader.forest.take c).forest.Free := hforest ▸ hf.advanced c
          obtain ⟨before, after, rfl, rfl, hbefore, hresult, hhopeless⟩ :=
            ih hfree (Bool.eq_false_iff.mpr hrest) h
          refine ⟨c :: before, after, rfl, ?_, ?_, ?_, ?_⟩
          · have hcount : (reader.forest.advanced c).consumed = reader.forest.consumed + 1 := rfl
            rw [hforest, hcount, List.length_cons]
            omega
          · rw [(Forest.takeAll_cons hok).2]
            exact hbefore
          · rw [List.cons_append, (Forest.takeAll_cons hok).1]
            exact hresult
          · rw [List.cons_append, (Forest.takeAll_cons hok).2]
            exact hhopeless

/-- A limit stops a reader where it stops the parse. -/
theorem takeChars_eq_engine {cs : List Char} {fault : Fault}
    (h : (reader.takeChars cs).toExcept = .error (.engine fault)) :
    (reader.forest.takeAll cs).result = .error fault := by
  induction cs generalizing reader with
  | nil => cases h
  | cons c cs ih =>
      rw [takeChars] at h
      split at h
      next reason hstop =>
        cases h
        rw [Forest.takeAll, hstop]
        exact hstop
      next hok =>
        split at h
        · cases h
        · rw [(Forest.takeAll_cons hok).1]
          exact ih h

/-- Only closing a reader refuses the table as a whole. -/
theorem takeChars_ne_refused {cs : List Char} {refusal : Refusal} :
    (reader.takeChars cs).toExcept ≠ .error (.refused refusal) := by
  induction cs generalizing reader with
  | nil =>
      rintro ⟨⟩
  | cons c cs ih =>
      rw [takeChars]
      split
      · rintro ⟨⟩
      · split
        · rintro ⟨⟩
        · exact ih

/-- A text with an unexpected character comes to a mismatch. -/
theorem close_of_unexpected (hf : reader.forest.Free)
    (hlive : reader.forest.isHopeless = false) {text : List Char} {found : Char} {offset : Nat}
    (hok : (reader.forest.takeAll text).result = .ok ())
    (h : (reader.takeChars text).toExcept = .error (.unexpected found offset)) :
    (reader.forest.takeAll text).forest.close.result =
      .error (.mismatch (reader.forest.consumed + text.length)) := by
  obtain ⟨before, after, rfl, -, -, hbefore, hhopeless⟩ := takeChars_eq_unexpected hf hlive h
  have hsplit : before ++ found :: after = (before ++ [found]) ++ after := by simp
  obtain ⟨hstopped, hcount, -⟩ := hf.takeAll_of_ok hbefore
  rw [hsplit] at hok ⊢
  rw [(Forest.takeAll_append hbefore).1] at hok
  rw [(Forest.takeAll_append hbefore).2, hstopped.close_takeAll_of_isHopeless hok hhopeless,
    hcount, Nat.add_assoc, ← List.length_append]

/-- A reader takes the characters of a parse that is accepted in the end. -/
theorem exists_takeChars {cs : List Char} {tokens : List Token} (hf : reader.forest.Free)
    (hlive : reader.forest.isHopeless = false) (hok : (reader.forest.takeAll cs).result = .ok ())
    (hclose : (reader.forest.takeAll cs).forest.close.result = .ok tokens) :
    ∃ reader', (reader.takeChars cs).toExcept = .ok reader' := by
  cases htaken : (reader.takeChars cs).toExcept with
  | ok reader' => exact ⟨reader', rfl⟩
  | error error =>
      cases error with
      | unexpected found offset =>
          cases (close_of_unexpected hf hlive hok htaken).symm.trans hclose
      | refused refusal => exact absurd htaken takeChars_ne_refused
      | engine fault => cases hok.symm.trans (takeChars_eq_engine htaken)

/-! ## Closing -/

/-- What closing a reader comes to, given what closing its parse comes to. -/
def conclusion : Except Refusal (List Token) → Except Error (List Record)
  | .error refusal => .error (.refused refusal)
  | .ok tokens => .ok (records tokens)

theorem close_eq (reader : Reader) :
    reader.close.1 = reader.endLine.toExcept >>= fun ended =>
      conclusion ended.forest.close.result := by
  rw [close, Step.toExcept]
  cases reader.endLine.result with
  | error error => rfl
  | ok _ =>
      show _ = conclusion reader.endLine.reader.forest.close.result
      dsimp only
      cases reader.endLine.reader.forest.close.result with
      | error refusal => rfl
      | ok tokens => rfl

end Reader

theorem Reader.endLine_of_ended {reader : Reader}
    (h : reader.last = none ∨ reader.last = some '\n') : reader.endLine = ⟨reader, .ok (), []⟩ := by
  rcases h with h | h
  · simp [endLine, h]
  · simp [endLine, h]

theorem Reader.endLine_of_open {reader : Reader}
    (h : ¬ (reader.last = none ∨ reader.last = some '\n')) :
    reader.endLine = reader.takeChars ['\n'] := by
  rw [endLine]
  split
  case h_1 hnone => exact absurd (.inl hnone) h
  case h_2 hfeed => exact absurd (.inr hfeed) h
  case h_3 => rfl

/-- A text with a line feed at its end, unless it is empty or has one. -/
def lineEnded (text : List Char) : List Char :=
  if text = [] ∨ text.getLast? = some '\n' then text else text ++ ['\n']

/-- Closing a reader supplies the line feed that its text lacks. -/
theorem Reader.takeChars_close (reader : Reader) (hlast : reader.last = none) (text : List Char) :
    ((reader.takeChars text).toExcept >>= fun reader => reader.close.1) =
      (reader.takeChars (lineEnded text)).toExcept >>= fun ended =>
        conclusion ended.forest.close.result := by
  cases htaken : (reader.takeChars text).toExcept with
  | error error =>
      rw [lineEnded]
      split
      · rw [htaken]
        rfl
      · rw [takeChars_append, htaken]
        rfl
  | ok reader' =>
      obtain ⟨-, -, hend⟩ := takeChars_eq_ok htaken
      rw [hlast, Option.or_none] at hend
      show reader'.close.1 = _
      rw [close_eq]
      by_cases hended : text = [] ∨ text.getLast? = some '\n'
      · rw [lineEnded, if_pos hended, htaken, endLine_of_ended (by simpa [hend] using hended)]
        rfl
      · rw [lineEnded, if_neg hended, takeChars_append, htaken,
          endLine_of_open (by simpa [hend] using hended)]
        rfl

/-- Reads a table that comes in chunks. -/
def Dialect.read (dialect : Dialect) (chunks : List String) : Except Error (List Record) := do
  let (reader, _) ← dialect.reader
  let reader ← reader.takeChunks chunks
  reader.close.1

/-- The table of the default dialect in one chunk. -/
theorem read_fst (text : String) : (read text).1 = Dialect.read {} [text] := by
  unfold Csv.read Dialect.read
  cases Dialect.reader {} with
  | error error => rfl
  | ok made =>
      obtain ⟨reader, built⟩ := made
      simp only [bind, Except.bind, Reader.takeChunks, Reader.Step.toExcept]
      cases (reader.take text).result with
      | error error => rfl
      | ok _ => rfl

namespace Dialect

variable {dialect : Dialect}

theorem reader_of_grammar {grammar : Grammar Char Token} (h : dialect.grammar = .ok grammar) :
    dialect.reader = .ok (.ofGrammar grammar, [grammar.builtNote]) := by
  unfold Dialect.reader
  rw [h]

theorem read_eq (dialect : Dialect) (chunks : List String) :
    dialect.read chunks =
      ((Reader.ofGrammar dialect.table).takeChars
        (lineEnded (chunks.flatMap String.toList))).toExcept >>= fun ended =>
          Reader.conclusion ended.forest.close.result := by
  have hread : dialect.read chunks =
      (Reader.ofGrammar dialect.table).takeChunks chunks >>= fun reader => reader.close.1 := by
    simp only [Dialect.read, reader_of_grammar dialect.grammar_eq, bind, Except.bind]
  rw [hread, Reader.takeChunks_eq, Reader.takeChars_close _ rfl]

/-- Reading a table ends with the parse of its text, or before if that is not accepted. -/
theorem read_cases (dialect : Dialect) (chunks : List String) :
    let fed := (Forest.new dialect.table .unlimited).takeAll
      (lineEnded (chunks.flatMap String.toList))
    (fed.result = .ok () ∧ dialect.read chunks = Reader.conclusion fed.forest.close.result) ∨
      ∃ error, dialect.read chunks = .error error ∧ (∀ refusal, error ≠ .refused refusal) ∧
        ¬ (fed.result = .ok () ∧ ∃ tokens, fed.forest.close.result = .ok tokens) := by
  intro fed
  rw [read_eq]
  cases htaken : ((Reader.ofGrammar dialect.table).takeChars
      (lineEnded (chunks.flatMap String.toList))).toExcept with
  | error error =>
      refine .inr ⟨error, rfl, ?_, ?_⟩
      · rintro refusal rfl
        exact Reader.takeChars_ne_refused htaken
      · rintro ⟨hok, tokens, hclose⟩
        have hfree : (Reader.ofGrammar dialect.table).forest.Free := .new dialect.table_isBuilt
        obtain ⟨reader, htaken'⟩ := Reader.exists_takeChars hfree rfl hok hclose
        cases htaken.symm.trans htaken'
  | ok reader =>
      obtain ⟨hok, hforest, -⟩ := Reader.takeChars_eq_ok htaken
      refine .inl ⟨hok, ?_⟩
      show Reader.conclusion reader.forest.close.result = _
      rw [hforest]
      rfl

theorem conclusion_eq_ok_iff {result : Except Refusal (List Token)} {rows : List Record} :
    Reader.conclusion result = .ok rows ↔ ∃ tokens, result = .ok tokens ∧ records tokens = rows := by
  cases result with
  | error refusal => simp [Reader.conclusion]
  | ok tokens => simp [Reader.conclusion]

theorem conclusion_eq_refused_iff {result : Except Refusal (List Token)} {refusal : Refusal} :
    Reader.conclusion result = .error (.refused refusal) ↔ result = .error refusal := by
  cases result with
  | error refusal => simp [Reader.conclusion]
  | ok tokens => simp [Reader.conclusion]

theorem records_map_row (rows : List Record) : records (rows.map Token.row) = rows := by
  simp [records, List.filterMap_map]

/-- The parse of a text is accepted with the rows of the records that the text renders. -/
theorem accepted_iff_renders (hd : dialect.Distinct) {text : List Char} {tokens : List Token} :
    let fed := (Forest.new dialect.table .unlimited).takeAll text
    fed.result = .ok () ∧ fed.forest.close.result = .ok tokens ↔
      text.length ≤ maxCount ∧ ∃ rows, dialect.Renders rows text ∧ tokens = rows.map Token.row :=
  (Forest.accepted_iff dialect.table_isBuilt (subsingleton_derivation hd)).trans
    (and_congr_right fun _ => exists_derivation_iff hd)

theorem read_eq_ok_iff (hd : dialect.Distinct) {chunks : List String} {rows : List Record} :
    dialect.read chunks = .ok rows ↔
      dialect.Renders rows (lineEnded (chunks.flatMap String.toList)) ∧
        (lineEnded (chunks.flatMap String.toList)).length ≤ maxCount := by
  rcases read_cases dialect chunks with ⟨hok, hread⟩ | ⟨error, hread, -, hnot⟩
  · rw [hread, conclusion_eq_ok_iff]
    constructor
    · rintro ⟨tokens, hclose, rfl⟩
      obtain ⟨hlength, rows, hrows, rfl⟩ := (accepted_iff_renders hd).mp ⟨hok, hclose⟩
      rw [records_map_row]
      exact ⟨hrows, hlength⟩
    · rintro ⟨hrows, hlength⟩
      have haccepted := (accepted_iff_renders hd).mpr ⟨hlength, rows, hrows, rfl⟩
      exact ⟨_, haccepted.2, records_map_row rows⟩
  · rw [hread]
    constructor
    · rintro ⟨⟩
    · rintro ⟨hrows, hlength⟩
      have haccepted := (accepted_iff_renders hd).mpr ⟨hlength, rows, hrows, rfl⟩
      exact absurd ⟨haccepted.1, _, haccepted.2⟩ hnot

theorem read_ne_ambiguous (hd : dialect.Distinct) (chunks : List String) (count consumed : Nat) :
    dialect.read chunks ≠ .error (.refused (.ambiguous count consumed)) := by
  rcases read_cases dialect chunks with ⟨hok, hread⟩ | ⟨error, hread, hrefused, -⟩
  · rw [hread]
    exact fun h => Forest.not_ambiguous dialect.table_isBuilt (subsingleton_derivation hd) hok
      (conclusion_eq_refused_iff.mp h)
  · rw [hread]
    rintro ⟨⟩
    exact hrefused _ rfl

/-! ## Writing and reading -/

/-- A rendering does not lack a line feed. -/
theorem Renders.lineEnded_eq {rows : List Record} {text : List Char}
    (h : dialect.Renders rows text) : lineEnded text = text := by
  obtain ⟨lines, hlines, rfl⟩ := h
  refine if_pos ?_
  induction hlines with
  | nil => exact .inl rfl
  | cons hline _ ih =>
      right
      rw [List.flatten_cons, List.getLast?_append]
      rcases ih with hnil | hlast
      · rw [hnil]
        exact hline.getLast?
      · rw [hlast]
        rfl

/-- A table is read as the records that its text, with a line feed supplied if it lacks one,
renders, unless it has more characters than can be counted; a whole table of the default
dialect is one.  No table is ambiguous, every rendering of records is read as them, and all
records can be rendered. -/
theorem read_inverts_rendering (hd : dialect.Distinct) :
    (∀ chunks rows, dialect.read chunks = .ok rows ↔
      dialect.Renders rows (lineEnded (chunks.flatMap String.toList)) ∧
        (lineEnded (chunks.flatMap String.toList)).length ≤ maxCount) ∧
    (∀ text rows, (Csv.read text).1 = .ok rows ↔
      Dialect.Renders {} rows (lineEnded text.toList) ∧
        (lineEnded text.toList).length ≤ maxCount) ∧
    (∀ chunks count consumed,
      dialect.read chunks ≠ .error (.refused (.ambiguous count consumed))) ∧
    (∀ rows text, dialect.Renders rows text → text.length ≤ maxCount →
      dialect.read [String.ofList text] = .ok rows) ∧
    ∀ rows, (∀ row ∈ rows, row ≠ []) → dialect.Renders rows (dialect.write rows) := by
  refine ⟨fun chunks rows => read_eq_ok_iff hd, fun text rows => ?_, read_ne_ambiguous hd, ?_,
    fun rows => renders_write⟩
  · have htext : [text].flatMap String.toList = text.toList := by simp
    rw [read_fst, read_eq_ok_iff distinct_default, htext]
  · intro rows text hrenders hlength
    have htext : lineEnded ([String.ofList text].flatMap String.toList) = text := by
      simpa using hrenders.lineEnded_eq
    refine (read_eq_ok_iff hd).mpr ?_
    rw [htext]
    exact ⟨hrenders, hlength⟩

/-- A table in the default dialect is read although its chunks part a doubled quote and its
last line feed is missing. -/
theorem read_inverts_rendering_chunks : Distinct {} ∧
    Dialect.read {} ["a,\"x\"", "\",\n\"\r\n", "b"] = .ok [["a", "x\",\n"], ["b"]] := by
  refine ⟨distinct_default, ((read_inverts_rendering distinct_default).1 _ _).mpr ⟨?_, by decide⟩⟩
  have ha : RendersCell {} "a" ['a'] := .inl ⟨by simp [structural], rfl⟩
  have hb : RendersCell {} "b" ['b'] := .inl ⟨by simp [structural], rfl⟩
  have hquoted : RendersCell {} "x\",\n" ['"', 'x', '"', '"', ',', '\n', '"'] := .inr rfl
  have hfirst : RendersRecord {} ["a", "x\",\n"] _ :=
    ⟨_, ⟨by simp, _, .cons ha (.cons hquoted .nil), rfl⟩, ['\r', '\n'], by decide, rfl⟩
  have hsecond : RendersRecord {} ["b"] _ :=
    ⟨_, ⟨by simp, _, .cons hb .nil, rfl⟩, ['\n'], by decide, rfl⟩
  exact ⟨_, .cons hfirst (.cons hsecond .nil), by decide⟩

end Dialect

end Csv

end Ramify
