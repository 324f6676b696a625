import Ramify.Csv.Command
import Ramify.Proofs.Csv.Reader
import Ramify.Proofs.Source

/-!
# All ways of reading a table agree

A table can be given to a reader as one text, in chunks of any size, or line by line from
the bytes that encode it, and it can be received over a channel.  However it is cut, the
reader takes the same characters.  A channel does without the two things that a reader adds:
it has to bring the last line feed along, and a character that cannot be right is noticed
when the parse is closed, as a mismatch.

Cutting bytes after every line feed cuts the text between characters, since the byte of a
line feed is no part of another character (`Command.exists_lines`).
-/

namespace Ramify.Csv

/-! ## Lines -/

namespace Command

/-- The bytes that encode a text. -/
def encode (text : String) : List UInt8 :=
  text.toUTF8.data.toList

theorem decode?_encode (text : String) : decode? (encode text) = some text :=
  dif_pos text.isValidUTF8

theorem encode_ofList (cs : List Char) :
    encode (String.ofList cs) = cs.flatMap String.utf8EncodeChar := by
  simp [encode, List.utf8Encode]

theorem encode_ofList_cons (c : Char) (text : String) :
    encode (String.ofList (c :: text.toList)) = String.utf8EncodeChar c ++ encode text := by
  rw [encode_ofList, List.flatMap_cons, ← encode_ofList, String.ofList_toList]

/-- The byte of a line feed is no part of another character. -/
theorem lineFeed_notMem {c : Char} (h : c ≠ '\n') : 0x0A ∉ String.utf8EncodeChar c := by
  have hval : c.val.toNat ≠ 10 := by
    intro heq
    refine h (Char.ext (UInt32.toNat_inj.mp ?_))
    rw [heq]
    rfl
  have hbyte : ∀ n : Nat, n < 256 → n ≠ 10 → (0x0A : UInt8) ≠ UInt8.ofNat n := by
    intro n hlt hne heq
    have hnat := congrArg UInt8.toNat heq
    rw [UInt8.toNat_ofNat_of_lt' hlt] at hnat
    exact hne hnat.symm
  intro hmem
  simp only [String.utf8EncodeChar] at hmem
  split_ifs at hmem
  all_goals
    simp only [List.mem_cons, List.not_mem_nil, or_false] at hmem
  · exact hbyte _ (by omega) hval hmem
  · rcases hmem with hmem | hmem
    all_goals exact hbyte _ (by omega) (by omega) hmem
  · rcases hmem with hmem | hmem | hmem
    all_goals exact hbyte _ (by omega) (by omega) hmem
  · rcases hmem with hmem | hmem | hmem | hmem
    all_goals exact hbyte _ (by omega) (by omega) hmem

/-- Bytes without a line feed belong to the line that follows them. -/
theorem lines_append {bytes : List UInt8} (hne : bytes ≠ []) (h : 0x0A ∉ bytes)
    (rest : List UInt8) :
    lines (bytes ++ rest) =
      match lines rest with
      | [] => [bytes]
      | line :: more => (bytes ++ line) :: more := by
  induction bytes with
  | nil => exact absurd rfl hne
  | cons byte bytes ih =>
      obtain ⟨hbyte, hbytes⟩ := not_or.mp (mt List.mem_cons.mpr h)
      rw [List.cons_append, lines, if_neg (Ne.symm hbyte)]
      cases bytes with
      | nil => rfl
      | cons second bytes =>
          rw [ih (List.cons_ne_nil _ _) hbytes]
          cases lines rest with
          | nil => rfl
          | cons line more => rfl

/-- The lines of the bytes of a text encode chunks of the text. -/
theorem exists_lines (text : List Char) :
    ∃ chunks : List String, lines (encode (String.ofList text)) = chunks.map encode ∧
      chunks.flatMap String.toList = text := by
  induction text with
  | nil => exact ⟨[], by decide, rfl⟩
  | cons c text ih =>
      obtain ⟨chunks, hlines, htext⟩ := ih
      rw [encode_ofList] at hlines
      rw [encode_ofList, List.flatMap_cons]
      by_cases hfeed : c = '\n'
      · subst hfeed
        refine ⟨"\n" :: chunks, ?_, ?_⟩
        · show [0x0A] :: lines (text.flatMap String.utf8EncodeChar) = _
          rw [hlines]
          rfl
        · rw [List.flatMap_cons, htext]
          rfl
      · rw [lines_append String.utf8EncodeChar_ne_nil (lineFeed_notMem hfeed), hlines]
        -- The character begins the first line, or is the only one of the text.
        cases chunks with
        | nil =>
            refine ⟨[String.ofList [c]], ?_, ?_⟩
            · rw [List.map_singleton, encode_ofList, List.flatMap_singleton]
              rfl
            · rw [List.flatMap_singleton, String.toList_ofList, ← htext]
              rfl
        | cons chunk chunks =>
            refine ⟨String.ofList (c :: chunk.toList) :: chunks, ?_, ?_⟩
            · rw [List.map_cons, List.map_cons, encode_ofList_cons]
            · rw [List.flatMap_cons, String.toList_ofList, ← htext]
              rfl

/-- Lines are given to a reader as the chunks that they encode. -/
theorem takeLines_encode (reader : Reader) (chunks : List String) :
    takeLines reader (chunks.map encode) =
      (reader.takeChunks chunks).mapError Complaint.unreadable := by
  induction chunks generalizing reader with
  | nil => rfl
  | cons chunk chunks ih =>
      rw [List.map_cons, takeLines, decode?_encode, Reader.takeChunks, Reader.Step.toExcept]
      dsimp only
      cases (reader.take chunk).result with
      | error error => rfl
      | ok _ => exact ih _

end Command

/-! ## Channels -/

/-- Receiving a table is taking its characters and closing the parse. -/
theorem receive_fst (grammar : Grammar Char Token) (channel : List Char) :
    let fed := (Forest.new grammar .unlimited).takeAll channel
    (receive grammar channel).1 =
      fed.result.mapError Error.engine >>= fun _ => Reader.conclusion fed.forest.close.result := by
  intro fed
  obtain ⟨hresult, hforest⟩ := (Forest.new grammar .unlimited).receive_eq channel
  rw [receive]
  simp only [hresult, hforest]
  cases fed.result with
  | error fault => rfl
  | ok _ =>
      dsimp only [Except.map]
      cases fed.forest.close.result with
      | error refusal => rfl
      | ok tokens => rfl

/-- What a channel brings is accepted if it gives records. -/
theorem accepted_of_receive {grammar : Grammar Char Token} {channel : List Char}
    {rows : List Record} (h : (receive grammar channel).1 = .ok rows) :
    let fed := (Forest.new grammar .unlimited).takeAll channel
    fed.result = .ok () ∧ ∃ tokens, fed.forest.close.result = .ok tokens := by
  intro fed
  rw [receive_fst] at h
  cases hresult : fed.result with
  | error fault =>
      rw [hresult] at h
      cases h
  | ok _ =>
      rw [hresult] at h
      obtain ⟨tokens, hclose, -⟩ := Dialect.conclusion_eq_ok_iff.mp h
      exact ⟨rfl, tokens, hclose⟩

namespace Dialect

variable {dialect : Dialect} {chunks : List String}

/-- Reading depends on the text only. -/
theorem read_congr {others : List String}
    (h : chunks.flatMap String.toList = others.flatMap String.toList) :
    dialect.read chunks = dialect.read others := by
  rw [read_eq, read_eq, h]

/-- Reading the bytes of a text line by line counts the records of the text. -/
theorem count_encode (dialect : Dialect) (text : String) :
    Command.count dialect (Command.encode text) =
      ((dialect.read [text]).mapError Complaint.unreadable).map List.length := by
  obtain ⟨chunks, hlines, htext⟩ := Command.exists_lines text.toList
  rw [String.ofList_toList] at hlines
  have hread : dialect.read [text] = dialect.read chunks := read_congr (by simp [htext])
  rw [hread]
  simp only [Command.count, Dialect.read, reader_of_grammar dialect.grammar_eq, hlines, bind,
    Except.bind, Except.mapError, Command.takeLines_encode]
  cases (Reader.ofGrammar dialect.table).takeChunks chunks with
  | error error => rfl
  | ok reader =>
      dsimp only
      cases reader.close.1 with
      | error error => rfl
      | ok rows => rfl

theorem conclusion_ne_unexpected {result : Except Refusal (List Token)} {found : Char}
    {offset : Nat} : Reader.conclusion result ≠ .error (.unexpected found offset) := by
  cases result with
  | error refusal => simp [Reader.conclusion]
  | ok tokens => simp [Reader.conclusion]

/-- Only taking characters finds one that is unexpected. -/
theorem takeChars_of_unexpected {found : Char} {offset : Nat}
    (h : dialect.read chunks = .error (.unexpected found offset)) :
    ((Reader.ofGrammar dialect.table).takeChars
      (lineEnded (chunks.flatMap String.toList))).toExcept = .error (.unexpected found offset) := by
  rw [read_eq] at h
  cases htaken : ((Reader.ofGrammar dialect.table).takeChars
      (lineEnded (chunks.flatMap String.toList))).toExcept with
  | error error =>
      rw [htaken] at h
      cases h
      rfl
  | ok reader =>
      rw [htaken] at h
      exact absurd h conclusion_ne_unexpected

/-- However a text is cut into chunks, and line by line from its bytes as well, a reader comes
to the same.  Received over a channel, with the line feed supplied that it may lack, the text
comes to the same records, or is refused for the same reason; where a reader finds a character
unexpected, the channel finds a mismatch.  A text of more characters than can be counted is
not received. -/
theorem readings_agree (dialect : Dialect) (chunks : List String) :
    let text := String.join chunks
    let ended := lineEnded text.toList
    dialect.read chunks = dialect.read [text] ∧
    Command.count dialect (Command.encode text) =
      ((dialect.read [text]).mapError Complaint.unreadable).map List.length ∧
    ∃ grammar, dialect.grammar = .ok grammar ∧
      (∀ rows, (receive grammar ended).1 = .ok rows ↔ dialect.read [text] = .ok rows) ∧
      (∀ refusal, dialect.read [text] = .error (.refused refusal) →
        (receive grammar ended).1 = .error (.refused refusal)) ∧
      (∀ found offset, dialect.read [text] = .error (.unexpected found offset) →
        ended.length ≤ maxCount →
        (receive grammar ended).1 = .error (.refused (.mismatch ended.length))) ∧
      (maxCount < ended.length →
        (receive grammar ended).1 =
          .error (.engine (.tooManySymbols (maxCount + 1) maxCount))) := by
  intro text ended
  have hended : lineEnded ([text].flatMap String.toList) = ended := by simp [ended]
  have hcases := read_cases dialect [text]
  rw [hended] at hcases
  refine ⟨read_congr (by simp [text, String.toList_join]), count_encode dialect text,
    dialect.table, dialect.grammar_eq, fun rows => ?_, fun refusal h => ?_,
    fun found offset h hlength => ?_, fun hlength => ?_⟩
  · rcases hcases with ⟨hok, hread⟩ | ⟨error, hread, -, hnot⟩
    · rw [receive_fst, hok, hread]
      rfl
    · rw [hread]
      constructor
      · intro hreceived
        exact absurd (accepted_of_receive hreceived) hnot
      · rintro ⟨⟩
  · rcases hcases with ⟨hok, hread⟩ | ⟨error, hread, hrefused, -⟩
    · rw [receive_fst, hok, ← h, hread]
      rfl
    · cases h.symm.trans hread
      exact absurd rfl (hrefused refusal)
  · have htaken := takeChars_of_unexpected h
    rw [hended] at htaken
    have hok := (Forest.exists_trees dialect.table_isBuilt hlength).1
    have hclose := Reader.close_of_unexpected (.new dialect.table_isBuilt) rfl hok htaken
    have hzero : (Reader.ofGrammar dialect.table).forest.consumed = 0 := rfl
    rw [hzero, Nat.zero_add] at hclose
    rw [receive_fst, hok]
    exact congrArg Reader.conclusion hclose
  · rw [receive_fst, Forest.takeAll_new_of_gt dialect.table_isBuilt hlength]
    rfl

/-- A quote within a bare cell is unexpected to a reader of the default dialect, also where a
chunk begins with it, and leads to a mismatch over a channel. -/
theorem readings_agree_stray_quote :
    Dialect.read {} ["a", "\"b"] = .error (.unexpected '"' 1) ∧
    ∃ grammar, Dialect.grammar {} = .ok grammar ∧
      (receive grammar ['a', '"', 'b', '\n']).1 = .error (.refused (.mismatch 4)) := by
  obtain ⟨hchunks, -, grammar, hgrammar, -, -, hunexpected, -⟩ := readings_agree {} ["a", "\"b"]
  have hread : Dialect.read {} [String.join ["a", "\"b"]] = .error (.unexpected '"' 1) := by
    decide +kernel
  exact ⟨hchunks.trans hread, grammar, hgrammar, hunexpected _ _ hread (by decide)⟩

end Dialect

end Ramify.Csv
