import Ramify.Proofs.Csv.Table
import Ramify.Proofs.Unambiguous

/-!
# A table has one derivation

If the delimiter, the quote and the line characters differ, no text has two derivations
as a table.  What follows a cell tells where it ends: a bare cell cannot go on over a
delimiter or a line character, and a quote that ends a cell is not followed by another.
-/

namespace Ramify.Csv.Dialect

variable {dialect : Dialect} {w : List Char}

/-- The four characters that structure a table differ. -/
def Distinct (dialect : Dialect) : Prop :=
  [dialect.delimiter, dialect.quote, '\r', '\n'].Nodup

/-- A character that ends a cell comes next. -/
def CellEnds (dialect : Dialect) (w : List Char) (k : Nat) : Prop :=
  ∃ c ∈ [dialect.delimiter, '\r', '\n'], w[k]? = some c

/-- A character that ends the cells of a record comes next. -/
def LineEnds (w : List Char) (k : Nat) : Prop :=
  ∃ c ∈ ['\r', '\n'], w[k]? = some c

/-- A single quote comes next. -/
def QuoteEnds (dialect : Dialect) (w : List Char) (k : Nat) : Prop :=
  w[k]? = some dialect.quote ∧ w[k + 1]? ≠ some dialect.quote

theorem LineEnds.cellEnds {k : Nat} (h : LineEnds w k) : CellEnds dialect w k := by
  obtain ⟨c, hc, hw⟩ := h
  exact ⟨c, List.mem_cons_of_mem _ hc, hw⟩

theorem distinct_default : Distinct {} := by
  unfold Distinct
  decide

theorem Distinct.delimiter_notMem (hd : dialect.Distinct) : dialect.delimiter ∉ ['\r', '\n'] :=
  fun hmem => (List.nodup_cons.mp hd).1 (List.mem_cons_of_mem _ hmem)

theorem Distinct.quote_notMem (hd : dialect.Distinct) :
    dialect.quote ∉ [dialect.delimiter, '\r', '\n'] := by
  obtain ⟨hdelimiter, hrest⟩ := List.nodup_cons.mp hd
  intro hmem
  rcases List.mem_cons.mp hmem with heq | hmem
  · exact hdelimiter (heq ▸ List.mem_cons_self)
  · exact (List.nodup_cons.mp hrest).1 hmem

theorem Distinct.ne_quote (hd : dialect.Distinct) {k : Nat} (h : CellEnds dialect w k) :
    w[k]? ≠ some dialect.quote := by
  obtain ⟨c, hc, hw⟩ := h
  intro hquote
  cases hw.symm.trans hquote
  exact hd.quote_notMem hc

/-! ## Cells -/

theorem determined_bare : dialect.table.Determined w 3 (CellEnds dialect w) := by
  have hstar : dialect.table.Determined w 2 (CellEnds dialect w) := by
    refine .star rfl (.oneOf rfl) ?_
    rintro k k' ⟨c, hc, hw⟩ _ tree
    obtain ⟨c', hw', hs, -⟩ := tree.of_oneOf rfl
    cases hw.symm.trans hw'
    have hnot := SymbolSet.contains_except.mp hs
    simp only [List.mem_cons, List.not_mem_nil, or_false] at hc hnot
    tauto
  exact .seq rfl (.cons (.guard rfl) (.single hstar) fun _ _ _ _ => trivial)

/-- A piece of the content of a quoted cell: another character, or a doubled quote. -/
theorem piece_cases {i j : Nat} (tree : Derivation dialect.table w 7 i j) :
    (∃ c, w[i]? = some c ∧ c ≠ dialect.quote) ∨
      (w[i]? = some dialect.quote ∧ w[i + 1]? = some dialect.quote) := by
  obtain ⟨form, rfl⟩ := tree.exists_form rfl
  cases form with
  | alt index hc tree =>
      rcases index with _ | _ | index
      · cases hc
        obtain ⟨c, hw, hs, -⟩ := tree.of_oneOf rfl
        exact .inl ⟨c, hw, by simpa using hs⟩
      · cases hc
        obtain ⟨hw, -⟩ := tree.of_literal rfl
        exact .inr ⟨getElem?_of_prefix_drop (n := 0) hw rfl, getElem?_of_prefix_drop hw rfl⟩
      · cases hc

/-- The content of a quoted cell ends where a quote is not doubled. -/
theorem determined_content : dialect.table.Determined w 8 (QuoteEnds dialect w) := by
  refine .star rfl (.alt_pair rfl (.oneOf rfl) (.literal rfl) ?_) ?_
  · intro i j j' tree tree'
    obtain ⟨c, hw, hs, -⟩ := tree.of_oneOf rfl
    have hw' := getElem?_of_prefix_drop (n := 0) (tree'.of_literal rfl).1 rfl
    cases hw.symm.trans hw'
    simp at hs
  · rintro k k' ⟨hquote, hsingle⟩ _ tree
    rcases piece_cases tree with ⟨c, hw, hne⟩ | ⟨-, hdouble⟩
    · cases hw.symm.trans hquote
      exact hne rfl
    · exact hsingle hdouble

theorem determined_quoted (hd : dialect.Distinct) :
    dialect.table.Determined w 10 (CellEnds dialect w) := by
  refine .seq rfl (.cons (.oneOf rfl) (.cons determined_content (.single (.oneOf rfl)) ?_)
    fun _ _ _ _ => trivial)
  intro k j trees hj
  cases trees with
  | cons tree trees =>
      cases trees
      obtain ⟨c, hw, hs, rfl, -⟩ := tree.of_oneOf rfl
      cases List.mem_singleton.mp (SymbolSet.contains_of.mp hs)
      exact ⟨hw, hd.ne_quote hj⟩

theorem bare_not_quote {i j : Nat} (tree : Derivation dialect.table w 3 i j) :
    w[i]? ≠ some dialect.quote := by
  obtain ⟨form, rfl⟩ := tree.exists_form rfl
  cases form with
  | seq trees =>
      cases trees with
      | cons tree _ =>
          obtain ⟨ha, -⟩ := tree.of_guard rfl
          intro hw
          rw [hw] at ha
          simp [SymbolSet.admits] at ha

theorem quoted_quote {i j : Nat} (tree : Derivation dialect.table w 10 i j) :
    w[i]? = some dialect.quote := by
  obtain ⟨form, rfl⟩ := tree.exists_form rfl
  cases form with
  | seq trees =>
      cases trees with
      | cons tree _ =>
          obtain ⟨c, hw, hs, -⟩ := tree.of_oneOf rfl
          cases List.mem_singleton.mp (SymbolSet.contains_of.mp hs)
          exact hw

theorem determined_cell (hd : dialect.Distinct) :
    dialect.table.Determined w 12 (CellEnds dialect w) := by
  refine .emit rfl (.alt_pair rfl determined_bare (determined_quoted hd) ?_)
  exact fun i j j' tree tree' => bare_not_quote tree (quoted_quote tree')

/-! ## Records -/

/-- A further cell of a record begins with the delimiter. -/
theorem further_delimiter {i j : Nat} (tree : Derivation dialect.table w 16 i j) :
    w[i]? = some dialect.delimiter := by
  obtain ⟨form, rfl⟩ := tree.exists_form rfl
  cases form with
  | seq trees =>
      cases trees with
      | cons tree _ =>
          obtain ⟨c, hw, hs, -⟩ := tree.of_oneOf rfl
          cases List.mem_singleton.mp (SymbolSet.contains_of.mp hs)
          exact hw

theorem lineEnds_of_lineEnd {i j : Nat} (tree : Derivation dialect.table w 22 i j) :
    LineEnds w i := by
  obtain ⟨form, rfl⟩ := tree.exists_form rfl
  cases form with
  | alt index hc tree =>
      rcases index with _ | _ | index
      · cases hc
        obtain ⟨c, hw, hs, -⟩ := tree.of_oneOf rfl
        cases List.mem_singleton.mp (SymbolSet.contains_of.mp hs)
        exact ⟨'\n', by decide, hw⟩
      · cases hc
        exact ⟨'\r', by decide, getElem?_of_prefix_drop (n := 0) (tree.of_literal rfl).1 rfl⟩
      · cases hc

theorem determined_cells (hd : dialect.Distinct) :
    dialect.table.Determined w 19 (LineEnds w) := by
  have hrule : ∀ id, dialect.table.nodes[id]? = some (.rule 0) →
      dialect.table.Determined w id (CellEnds dialect w) :=
    fun id hn => .rule hn rfl (determined_cell hd)
  have hfurther : dialect.table.Determined w 16 (CellEnds dialect w) :=
    .seq rfl (.cons (.oneOf rfl) (.single (hrule 15 rfl)) fun _ _ _ _ => trivial)
  have hstar : dialect.table.Determined w 17 (LineEnds w) := by
    refine .star rfl (hfurther.mono ?_) ?_
    · rintro k (hend | ⟨k', ⟨tree⟩⟩)
      · exact hend.cellEnds
      · exact ⟨_, List.mem_cons_self, further_delimiter tree⟩
    · rintro k k' ⟨c, hc, hw⟩ _ tree
      cases hw.symm.trans (further_delimiter tree)
      exact hd.delimiter_notMem hc
  refine .fold rfl (.seq rfl (.cons (hrule 13 rfl) (.single hstar) ?_))
  intro k j trees hj
  cases trees with
  | cons tree trees =>
      cases trees
      obtain ⟨form, rfl⟩ := tree.exists_form rfl
      cases form with
      | star rounds =>
          cases rounds with
          | done => exact hj.cellEnds
          | round tree => exact ⟨_, List.mem_cons_self, further_delimiter tree⟩

theorem determined_lineEnd {Ends : Nat → Prop} : dialect.table.Determined w 22 Ends := by
  refine .alt_pair rfl (.oneOf rfl) (.literal rfl) ?_
  intro i j j' tree tree'
  obtain ⟨c, hw, hs, -⟩ := tree.of_oneOf rfl
  cases List.mem_singleton.mp (SymbolSet.contains_of.mp hs)
  have hw' := getElem?_of_prefix_drop (n := 0) (tree'.of_literal rfl).1 rfl
  exact absurd (hw.symm.trans hw') (by simp)

theorem determined_record (hd : dialect.Distinct) {Ends : Nat → Prop} :
    dialect.table.Determined w 24 Ends := by
  refine .rule rfl rfl (.seq rfl (.cons (determined_cells hd) (.single determined_lineEnd) ?_))
  intro k j trees _
  cases trees with
  | cons tree _ => exact lineEnds_of_lineEnd tree

/-- A text has one derivation as a table at most. -/
theorem subsingleton_derivation (hd : dialect.Distinct) :
    Subsingleton (Derivation dialect.table w dialect.table.start 0 w.length) := by
  refine Grammar.Determined.subsingleton (.star rfl (determined_record hd) ?_) 0
  rintro k k' rfl hlt tree
  exact absurd (tree.le_length (Nat.le_refl _)) (Nat.not_le.mpr hlt)

end Ramify.Csv.Dialect
