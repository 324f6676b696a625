import Ramify.Csv.Dialect
import Ramify.Proofs.Cost
import Ramify.Proofs.Unambiguous

/-!
# The grammar of tables

`Dialect.table` is the grammar that `Dialect.grammar` builds, with its nodes written out.
Building never fails: every node stands after its left corners, so none is left-recursive.
-/

namespace Ramify.Csv.Dialect

variable (dialect : Dialect)

/-- The nodes of the grammar of tables.  A bare cell is at place 3, a quoted one at 10 and
a cell at 12; the cells of a record are at 19, a line end at 22, a record at 23 and the
table at 25. -/
def nodes : Arena Char Token :=
  #[.guard (.except [dialect.quote]),
    .oneOf (.except [dialect.delimiter, dialect.quote, '\r', '\n']),
    .star 1,
    .seq [0, 2],
    .oneOf (.of [dialect.quote]),
    .oneOf (.except [dialect.quote]),
    .literal [dialect.quote, dialect.quote],
    .alt [5, 6],
    .star 7,
    .oneOf (.of [dialect.quote]),
    .seq [4, 8, 9],
    .alt [3, 10],
    .emit 11 (.ofSymbols fun written => .cell (String.ofList (content dialect.quote written))),
    .rule 0,
    .oneOf (.of [dialect.delimiter]),
    .rule 0,
    .seq [14, 15],
    .star 16,
    .seq [13, 17],
    .fold 18 toRow,
    .oneOf (.of ['\n']),
    .literal ['\r', '\n'],
    .alt [20, 21],
    .seq [19, 22],
    .rule 1,
    .star 24]

/-- The rules of the grammar of tables. -/
def rules : Array Rule := #[⟨"cell", 12⟩, ⟨"record", 23⟩]

/-- The grammar of tables. -/
def table : Grammar Char Token where
  nodes := dialect.nodes
  rules := rules
  nullable := Nullable.compute dialect.nodes rules
  start := 25

/-- Whether all that a node mentions stands before a place. -/
def mentionsBelow (id : NodeId) : Node Char Token → Bool
  | .seq parts => parts.all (· < id)
  | .alt choices => choices.all (· < id)
  | .star body | .times body _ | .emit body _ | .fold body _ => body < id
  | .rule index => (rules[index]?.map Rule.body).all (· < id)
  | _ => true

theorem nodes_mention_below {id : NodeId} {node : Node Char Token}
    (hn : dialect.nodes[id]? = some node) : mentionsBelow id node = true := by
  have hall : (dialect.nodes.toList.zipIdx.all fun (node, id) => mentionsBelow id node) = true :=
    rfl
  rw [← Array.getElem?_toList] at hn
  have hmem : (node, id) ∈ dialect.nodes.toList.zipIdx := List.mem_zipIdx_iff_getElem?.mpr hn
  exact List.all_eq_true.mp hall _ hmem

/-- Every node stands after its left corners. -/
theorem lt_of_leftCorner {a b : NodeId} (h : dialect.table.LeftCorner a b) : a < b := by
  unfold Grammar.LeftCorner Grammar.leftCorners at h
  split at h
  next parts hn =>
    have hbelow := List.all_eq_true.mp (dialect.nodes_mention_below hn)
    exact of_decide_eq_true (hbelow a (Grammar.mem_of_mem_leadingParts h))
  next choices hn =>
    have hbelow := List.all_eq_true.mp (dialect.nodes_mention_below hn)
    exact of_decide_eq_true (hbelow a h)
  next body hn =>
    cases List.mem_singleton.mp h
    exact of_decide_eq_true (dialect.nodes_mention_below hn)
  next body _ hn =>
    cases List.mem_singleton.mp h
    exact of_decide_eq_true (dialect.nodes_mention_below hn)
  next body _ hn =>
    cases List.mem_singleton.mp h
    exact of_decide_eq_true (dialect.nodes_mention_below hn)
  next body count hn =>
    split at h
    · cases h
    · cases List.mem_singleton.mp h
      exact of_decide_eq_true (dialect.nodes_mention_below hn)
  next index hn =>
    have hbelow := (Option.all_eq_true _ _).mp (dialect.nodes_mention_below hn)
    exact of_decide_eq_true (hbelow a (Option.mem_toList.mp h))
  · cases h

theorem record_eq (rule : RuleId) : dialect.record rule =
    .seq [.fold (.seq [.rule rule, .star (.seq [.oneOf (.of [dialect.delimiter]), .rule rule])])
      toRow, .alt [.oneOf (.of ['\n']), .literal ['\r', '\n']]] :=
  rfl

theorem place_cell : Arena.place #[] dialect.cell = (dialect.nodes.extract 0 13, 12) :=
  rfl

theorem place_record : Arena.place (dialect.nodes.extract 0 13) (dialect.record 0) =
    (dialect.nodes.extract 0 24, 23) := by
  rw [record_eq]
  simp [Arena.place, Arena.placeAll, Arena.add, nodes]

theorem place_table : Arena.place (dialect.nodes.extract 0 24) (.star (.rule 1)) =
    (dialect.nodes, 25) := by
  simp [Arena.place, Arena.add, nodes]

theorem dangling_nodes : Builder.dangling? dialect.nodes rules = none :=
  rfl

/-- The builder that holds the rule of cells. -/
def cellBuilder : Builder Char Token :=
  ⟨dialect.nodes.extract 0 13, #[⟨"cell", some 12⟩]⟩

/-- The builder that holds both rules. -/
def recordBuilder : Builder Char Token :=
  ⟨dialect.nodes.extract 0 24, #[⟨"cell", some 12⟩, ⟨"record", some 23⟩]⟩

theorem addRule_cell : Builder.new.addRule "cell" dialect.cell = .ok (dialect.cellBuilder, 0) := by
  simp [Builder.addRule, Builder.new, Builder.declare, Builder.define, place_cell, cellBuilder]

theorem addRule_record : dialect.cellBuilder.addRule "record" (dialect.record 0) =
    .ok (dialect.recordBuilder, 1) := by
  simp [Builder.addRule, Builder.declare, Builder.define, place_record, cellBuilder, recordBuilder]

theorem build_table : dialect.recordBuilder.build (.star (.rule 1)) = .ok dialect.table :=
  Builder.build_of_accepted dialect.place_table rfl dialect.dangling_nodes
    (Grammar.rejectLeftRecursion_of_rank id fun _ _ h => dialect.lt_of_leftCorner h)

/-- Building the grammar of a table never fails. -/
theorem grammar_eq : dialect.grammar = .ok dialect.table := by
  simp only [Dialect.grammar, addRule_cell, addRule_record, build_table, bind, Except.bind]

/-- The grammar of a table is built. -/
theorem table_isBuilt : dialect.table.IsBuilt :=
  ⟨dialect.recordBuilder, .star (.rule 1),
    (Builder.Reached.new.addRule dialect.addRule_cell).addRule dialect.addRule_record,
    dialect.build_table⟩

end Ramify.Csv.Dialect
