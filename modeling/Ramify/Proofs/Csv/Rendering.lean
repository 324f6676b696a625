import Ramify.Proofs.Csv.Unambiguous
import Ramify.Proofs.Reading

/-!
# Rendered tables

A table is rendered line by line: the cells of a record with delimiters between them, and
a line feed, with or without a carriage return before it.  A cell is written as it is if it
has none of the characters that structure the table, and otherwise, or always, between
quotes with every quote doubled.

The grammar of tables reads the renderings and nothing else (`Dialect.reads_table`).  It
needs what follows a cell for this: a quote after an empty cell would begin another one.
-/

namespace Ramify.Csv

/-! ## Doubled quotes -/

/-- A text with every quote in it doubled. -/
def double (quote : Char) (text : List Char) : List Char :=
  text.flatMap fun c => if c = quote then [quote, quote] else [c]

theorem undouble_cons_of_ne {quote c : Char} (h : c ≠ quote) (text : List Char) :
    undouble quote (c :: text) = c :: undouble quote text := by
  rw [undouble.eq_def]
  exact if_neg h

theorem undouble_double (quote : Char) (text : List Char) :
    undouble quote (double quote text) = text := by
  induction text with
  | nil => rfl
  | cons c cs ih =>
      rw [double, List.flatMap_cons, ← double]
      split
      case isTrue h => simp [undouble, ih, h]
      case isFalse h => simp [undouble_cons_of_ne h, ih]

/-- A text that does not begin with a quote is its own content. -/
theorem content_of_head?_ne {quote : Char} {text : List Char} (h : text.head? ≠ some quote) :
    content quote text = text := by
  cases text with
  | nil => rfl
  | cons c cs =>
      have hne : c ≠ quote := fun heq => h (congrArg some heq)
      simp [content, hne]

theorem content_quoted (quote : Char) (text : List Char) :
    content quote (quote :: double quote text ++ [quote]) = text := by
  simp [content, List.getLast?_append, undouble_double]

theorem toRow_map_cell (cells : Record) : toRow (cells.map Token.cell) = .row cells := by
  simp [toRow, List.filterMap_map]

namespace Dialect

/-! ## Renderings -/

section Renderings

variable (dialect : Dialect)

/-- The characters that structure a table. -/
def structural : List Char := [dialect.delimiter, dialect.quote, '\r', '\n']

/-- A cell is written bare or between quotes. -/
def RendersCell (cell : String) (written : List Char) : Prop :=
  (∀ c ∈ cell.toList, c ∉ dialect.structural) ∧ written = cell.toList ∨
    written = dialect.quote :: double dialect.quote cell.toList ++ [dialect.quote]

/-- The cells of a record, of which there is at least one, are written with delimiters
between them. -/
def RendersCells (record : Record) (text : List Char) : Prop :=
  record ≠ [] ∧ ∃ written, List.Forall₂ dialect.RendersCell record written ∧
    text = [dialect.delimiter].intercalate written

/-- A record is written as its cells and a line end. -/
def RendersRecord (record : Record) (line : List Char) : Prop :=
  ∃ text, dialect.RendersCells record text ∧ ∃ lineEnd ∈ [['\n'], ['\r', '\n']],
    line = text ++ lineEnd

/-- A table is written record by record. -/
def Renders (records : List Record) (text : List Char) : Prop :=
  ∃ lines, List.Forall₂ dialect.RendersRecord records lines ∧ text = lines.flatten

/-- The text of a table with all cells between quotes. -/
def write (records : List Record) : List Char :=
  records.flatMap fun record =>
    [dialect.delimiter].intercalate (record.map fun cell =>
      dialect.quote :: double dialect.quote cell.toList ++ [dialect.quote]) ++ ['\n']

end Renderings

variable {dialect : Dialect} {w : List Char}

/-- Records with cells have a rendering. -/
theorem renders_write {records : List Record} (h : ∀ record ∈ records, record ≠ []) :
    dialect.Renders records (dialect.write records) := by
  refine ⟨_, ?_, rfl⟩
  refine List.forall₂_map_right_iff.mpr (List.forall₂_same.mpr fun record hmem => ?_)
  refine ⟨_, ⟨h record hmem, _, ?_, rfl⟩, ['\n'], List.mem_cons_self, rfl⟩
  exact List.forall₂_map_right_iff.mpr (List.forall₂_same.mpr fun cell _ => .inr rfl)

/-! ## Cells -/

/-- Loops over single characters read the texts of these characters. -/
theorem many_symbol_iff {accepts : Char → Prop} {text : List Char} {tokens : List Token} :
    (Reading.silent fun text => ∃ c, accepts c ∧ text = [c]).Many text tokens ↔
      Reading.silent (fun text => ∀ c ∈ text, accepts c) text tokens := by
  constructor
  · intro h
    induction h with
    | nil => exact ⟨by simp, rfl⟩
    | cons hfirst _ ih =>
        obtain ⟨⟨c, hc, rfl⟩, rfl⟩ := hfirst
        obtain ⟨hrest, rfl⟩ := ih
        exact ⟨List.forall_mem_cons.mpr ⟨hc, hrest⟩, rfl⟩
  · rintro ⟨hall, rfl⟩
    induction text with
    | nil => exact .nil
    | cons c cs ih =>
        obtain ⟨hc, hrest⟩ := List.forall_mem_cons.mp hall
        show Reading.Many _ ([c] ++ cs) ([] ++ [])
        exact .cons ⟨⟨c, hc, rfl⟩, rfl⟩ (ih hrest)

theorem admits_except_iff {c : Char} {next : Option Char} :
    (SymbolSet.except [c]).admits next = true ↔ next ≠ some c := by
  cases next with
  | none => simp [SymbolSet.admits, SymbolSet.except]
  | some d => simp [SymbolSet.admits]

/-- A bare cell reads what has no structural characters. -/
theorem reads_bare (hd : dialect.Distinct) :
    dialect.table.Reads w 3 (CellEnds dialect w)
      (.silent fun text => ∀ c ∈ text, c ∉ dialect.structural) := by
  have hstar : dialect.table.Reads w 2 (CellEnds dialect w)
      (.silent fun text => ∀ c ∈ text, c ∉ dialect.structural) := by
    refine (Grammar.Reads.star rfl (.oneOf rfl) ?_ (fun _ _ => trivial)
      fun _ _ _ _ _ _ => trivial).congr ?_
    · rintro _ _ ⟨⟨c, -, rfl⟩, -⟩
      exact List.cons_ne_nil _ _
    · intro text tokens
      simp only [SymbolSet.contains_except]
      exact many_symbol_iff
  refine (Grammar.Reads.seq rfl (.cons (.guard rfl) (.single hstar) ?_)).congr ?_
  · -- No quote follows the guard: neither in the cell nor, if it is empty, after it.
    rintro k j text tokens hspan ⟨hbare, -⟩ hj
    rw [admits_except_iff]
    cases text with
    | nil =>
        cases hspan.end_eq
        exact hd.ne_quote hj
    | cons c cs =>
        have hc := (List.forall_mem_cons.mp hbare).1
        rw [hspan.getElem?]
        rintro ⟨rfl⟩
        simp [structural] at hc
  · intro text tokens
    rw [Reading.silent_andThen]
    simp [Reading.silent]

/-- The inside of a quoted cell reads texts with doubled quotes. -/
theorem reads_inside : dialect.table.Reads w 8 (fun _ => True)
    (.silent fun text => ∃ inside, text = double dialect.quote inside) := by
  refine (Grammar.Reads.star rfl (.alt_pair rfl (.oneOf rfl) (.literal rfl)) ?_
    (fun _ _ => trivial) fun _ _ _ _ _ _ => trivial).congr fun text tokens => ⟨fun h => ?_, ?_⟩
  · rintro _ _ (⟨⟨c, -, rfl⟩, -⟩ | ⟨rfl, -⟩)
    · exact List.cons_ne_nil _ _
    · exact List.cons_ne_nil _ _
  · induction h with
    | nil => exact ⟨⟨[], rfl⟩, rfl⟩
    | cons hfirst _ ih =>
        obtain ⟨⟨inside, rfl⟩, rfl⟩ := ih
        rcases hfirst with ⟨⟨c, hc, rfl⟩, rfl⟩ | ⟨rfl, rfl⟩
        · have hne : c ≠ dialect.quote := by simpa using hc
          exact ⟨⟨c :: inside, by simp [double, hne]⟩, rfl⟩
        · exact ⟨⟨dialect.quote :: inside, by simp [double]⟩, rfl⟩
  · rintro ⟨⟨inside, rfl⟩, rfl⟩
    induction inside with
    | nil => exact .nil
    | cons c cs ih =>
        rw [double, List.flatMap_cons, ← double]
        show Reading.Many _ _ ([] ++ [])
        refine .cons ?_ ih
        split
        case isTrue h => exact .inr ⟨rfl, rfl⟩
        case isFalse h => exact .inl ⟨⟨c, by simpa using h, rfl⟩, rfl⟩

theorem content_of_bare {text : List Char} (h : ∀ c ∈ text, c ∉ dialect.structural) :
    content dialect.quote text = text := by
  refine content_of_head?_ne fun hhead => ?_
  have hquote := h _ (List.mem_of_head? hhead)
  simp [structural] at hquote

/-- A quoted cell reads texts with doubled quotes between two quotes. -/
theorem reads_quoted : dialect.table.Reads w 10 (fun _ => True)
    (.silent fun text => ∃ inside,
      text = dialect.quote :: double dialect.quote inside ++ [dialect.quote]) := by
  refine (Grammar.Reads.seq rfl (.cons (.symbol rfl) (.cons reads_inside (.single (.symbol rfl))
    fun _ _ _ _ _ _ _ => trivial) fun _ _ _ _ _ _ _ => trivial)).congr fun text tokens => ?_
  rw [Reading.silent_andThen, Reading.silent_andThen]
  simp [Reading.silent]

/-- A cell reads its renderings. -/
theorem reads_cell (hd : dialect.Distinct) : dialect.table.Reads w 12 (CellEnds dialect w)
    (.of dialect.RendersCell fun cell => [.cell cell]) := by
  refine (Grammar.Reads.emit rfl (.alt_pair rfl (reads_bare hd)
    (reads_quoted.mono fun _ _ => trivial))).congr fun text tokens => ⟨?_, ?_⟩
  · rintro ⟨_, ⟨hbare, rfl⟩ | ⟨⟨inside, rfl⟩, rfl⟩, rfl⟩
    · refine ⟨String.ofList text, .inl ⟨?_, String.toList_ofList.symm⟩, ?_⟩
      · rwa [String.toList_ofList]
      · rw [Yield.token, content_of_bare hbare]
        rfl
    · refine ⟨String.ofList inside, .inr ?_, ?_⟩
      · rw [String.toList_ofList]
      · rw [Yield.token, content_quoted]
        rfl
  · rintro ⟨cell, ⟨hbare, rfl⟩ | rfl, rfl⟩
    · refine ⟨[], .inl ⟨hbare, rfl⟩, ?_⟩
      rw [Yield.token, content_of_bare hbare, String.ofList_toList]
      rfl
    · refine ⟨[], .inr ⟨⟨_, rfl⟩, rfl⟩, ?_⟩
      rw [Yield.token, content_quoted, String.ofList_toList]
      rfl

/-! ## Records -/

/-- A further cell of a record stands after a delimiter. -/
def RendersFurther (dialect : Dialect) (cell : String) (text : List Char) : Prop :=
  ∃ written, dialect.RendersCell cell written ∧ text = dialect.delimiter :: written

theorem forall₂_rendersFurther_iff {cells : List String} {texts : List (List Char)} :
    List.Forall₂ dialect.RendersFurther cells texts ↔
      ∃ written, List.Forall₂ dialect.RendersCell cells written ∧
        texts = written.map (dialect.delimiter :: ·) := by
  constructor
  · intro h
    induction h with
    | nil => exact ⟨[], .nil, rfl⟩
    | cons hfirst _ ih =>
        obtain ⟨first, hcell, rfl⟩ := hfirst
        obtain ⟨written, hcells, rfl⟩ := ih
        exact ⟨first :: written, .cons hcell hcells, rfl⟩
  · rintro ⟨written, hcells, rfl⟩
    induction hcells with
    | nil => exact .nil
    | cons hcell _ ih => exact .cons ⟨_, hcell, rfl⟩ ih

theorem intercalate_singleton_cons (c : Char) (first : List Char) (rest : List (List Char)) :
    [c].intercalate (first :: rest) = first ++ (rest.map (c :: ·)).flatten := by
  induction rest generalizing first with
  | nil => simp
  | cons second rest ih => simp [List.intercalate_cons_cons, ih]

/-- The cells of a record are one cell and further cells. -/
theorem rendersCells_cons_iff {cell : String} {cells : List String} {text : List Char} :
    dialect.RendersCells (cell :: cells) text ↔
      ∃ first texts, dialect.RendersCell cell first ∧
        List.Forall₂ dialect.RendersFurther cells texts ∧ text = first ++ texts.flatten := by
  constructor
  · rintro ⟨-, _, hrecord, rfl⟩
    cases hrecord with
    | cons hcell hcells =>
        exact ⟨_, _, hcell, forall₂_rendersFurther_iff.mpr ⟨_, hcells, rfl⟩,
          intercalate_singleton_cons _ _ _⟩
  · rintro ⟨first, texts, hcell, hfurther, rfl⟩
    obtain ⟨written, hcells, rfl⟩ := forall₂_rendersFurther_iff.mp hfurther
    exact ⟨List.cons_ne_nil _ _, first :: written, .cons hcell hcells,
      (intercalate_singleton_cons _ _ _).symm⟩

theorem reads_further (hd : dialect.Distinct) : dialect.table.Reads w 17 (LineEnds w)
    (.of (fun cells text => ∃ texts, List.Forall₂ dialect.RendersFurther cells texts ∧
      text = texts.flatten) (List.map Token.cell)) := by
  have hfurther : dialect.table.Reads w 16 (CellEnds dialect w)
      (.of dialect.RendersFurther fun cell => [.cell cell]) := by
    refine (Grammar.Reads.seq rfl (.cons (.symbol rfl) (.single (.rule rfl rfl (reads_cell hd)))
      fun _ _ _ _ _ _ _ => trivial)).congr fun text tokens => ⟨?_, ?_⟩
    · rintro ⟨_, written, _, _, ⟨rfl, rfl⟩, ⟨cell, hcell, rfl⟩, rfl, rfl⟩
      exact ⟨cell, ⟨written, hcell, rfl⟩, rfl⟩
    · rintro ⟨cell, ⟨written, hcell, rfl⟩, rfl⟩
      exact ⟨[_], written, [], _, ⟨rfl, rfl⟩, ⟨cell, hcell, rfl⟩, rfl, rfl⟩
  refine (Grammar.Reads.star rfl hfurther ?_ (fun _ hend => hend.cellEnds) ?_).congr
    fun text tokens => Reading.many_of_iff
  · rintro _ _ ⟨cell, ⟨written, -, rfl⟩, -⟩
    exact List.cons_ne_nil _ _
  · rintro k j _ _ hspan ⟨cell, ⟨written, -, rfl⟩, -⟩
    exact ⟨_, List.mem_cons_self, hspan.getElem?⟩

/-- The cells of a record are read as its row. -/
theorem reads_cells (hd : dialect.Distinct) : dialect.table.Reads w 19 (LineEnds w)
    (.of dialect.RendersCells fun record => [.row record]) := by
  refine (Grammar.Reads.fold rfl (.seq rfl (.cons (.rule rfl rfl (reads_cell hd))
    (.single (reads_further hd)) ?_))).congr fun text tokens => ⟨?_, ?_⟩
  · rintro k j _ _ hspan ⟨_, ⟨texts, hfurther, rfl⟩, -⟩ hj
    cases hfurther with
    | nil =>
        cases hspan.end_eq
        exact hj.cellEnds
    | cons hfirst =>
        obtain ⟨written, -, rfl⟩ := hfirst
        exact ⟨_, List.mem_cons_self, hspan.getElem?⟩
  · rintro ⟨_, ⟨_, _, _, _, ⟨cell, hcell, rfl⟩, ⟨cells, ⟨texts, hcells, rfl⟩, rfl⟩, rfl, rfl⟩, rfl⟩
    refine ⟨cell :: cells, rendersCells_cons_iff.mpr ⟨_, texts, hcell, hcells, rfl⟩, ?_⟩
    exact congrArg (fun row => [row]) (toRow_map_cell (cell :: cells))
  · rintro ⟨record, hrecord, rfl⟩
    cases record with
    | nil => exact absurd rfl hrecord.1
    | cons cell cells =>
        obtain ⟨first, texts, hcell, hcells, rfl⟩ := rendersCells_cons_iff.mp hrecord
        refine ⟨(cell :: cells).map .cell, ⟨first, texts.flatten, [.cell cell], cells.map .cell,
          ⟨cell, hcell, rfl⟩, ⟨cells, ⟨texts, hcells, rfl⟩, rfl⟩, rfl, rfl⟩, ?_⟩
        rw [toRow_map_cell]

theorem reads_lineEnd {Ends : Nat → Prop} : dialect.table.Reads w 22 Ends
    (.silent fun text => text ∈ [['\n'], ['\r', '\n']]) := by
  refine (Grammar.Reads.alt_pair rfl (.symbol rfl) (.literal rfl)).congr fun text tokens => ?_
  simp [Reading.silent, or_and_right]

/-- A record reads its renderings. -/
theorem reads_record (hd : dialect.Distinct) {Ends : Nat → Prop} : dialect.table.Reads w 24 Ends
    (.of dialect.RendersRecord fun record => [.row record]) := by
  refine .rule rfl rfl ((Grammar.Reads.seq rfl (.cons (reads_cells hd) (.single reads_lineEnd)
    ?_)).congr fun text tokens => ⟨?_, ?_⟩)
  · rintro k j text _ hspan ⟨hmem, -⟩ -
    simp only [List.mem_cons, List.not_mem_nil, or_false] at hmem
    rcases hmem with rfl | rfl
    · exact ⟨'\n', by decide, hspan.getElem?⟩
    · exact ⟨'\r', by decide, hspan.getElem?⟩
  · rintro ⟨_, lineEnd, _, _, ⟨record, hrecord, rfl⟩, ⟨hmem, rfl⟩, rfl, rfl⟩
    exact ⟨record, ⟨_, hrecord, lineEnd, hmem, rfl⟩, rfl⟩
  · rintro ⟨record, ⟨text, hrecord, lineEnd, hmem, rfl⟩, rfl⟩
    exact ⟨text, lineEnd, _, [], ⟨record, hrecord, rfl⟩, ⟨hmem, rfl⟩, rfl, rfl⟩

theorem RendersRecord.getLast? {record : Record} {line : List Char}
    (h : dialect.RendersRecord record line) : line.getLast? = some '\n' := by
  obtain ⟨text, -, lineEnd, hmem, rfl⟩ := h
  simp only [List.mem_cons, List.not_mem_nil, or_false] at hmem
  rcases hmem with rfl | rfl
  · simp
  · simp

theorem RendersRecord.ne_nil {record : Record} {line : List Char}
    (h : dialect.RendersRecord record line) : line ≠ [] := by
  rintro rfl
  cases h.getLast?

/-- The grammar of tables reads their renderings. -/
theorem reads_table (hd : dialect.Distinct) :
    dialect.table.Reads w dialect.table.start (fun _ => True)
      (.of dialect.Renders (List.map Token.row)) := by
  refine (Grammar.Reads.star rfl (reads_record hd) ?_ (fun _ _ => trivial)
    fun _ _ _ _ _ _ => trivial).congr fun text tokens => Reading.many_of_iff
  rintro _ _ ⟨record, hrecord, -⟩
  exact hrecord.ne_nil

/-- The derivations of a text yield the rows of the records that it renders. -/
theorem exists_derivation_iff (hd : dialect.Distinct) {tokens : List Token} :
    (∃ tree : Derivation dialect.table w dialect.table.start 0 w.length, tree.yield = tokens) ↔
      ∃ records, dialect.Renders records w ∧ tokens = records.map Token.row := by
  constructor
  · rintro ⟨tree, rfl⟩
    obtain ⟨text, hspan, hread⟩ := (reads_table hd).exists_text tree
    cases Spans.whole_iff.mp hspan
    exact hread
  · intro hread
    exact (reads_table hd).exists_tree (Spans.whole_iff.mpr rfl) hread trivial

end Dialect

end Ramify.Csv
