import Ramify.Stack.Program
import Ramify.Proofs.Built

/-!
# The grammar of programs

`Program.table` is the grammar that `Program.grammar` builds, with its nodes written out.
The operations come first, each as a set of one word below the emission of its instruction.
-/

namespace Ramify.Stack.Program

/-- The nodes of the operations.  The emission of the operation with number `i` is at place
`2 * i + 1`. -/
def operations : List (Node Word Instruction) :=
  Op.all.zipIdx.flatMap fun (o, index) =>
    [.oneOf (.of [.op o]), .emit (2 * index) (.fixed (.op o))]

/-- The places of the ways to match an instruction. -/
def ways : List NodeId :=
  (List.range Op.all.length).map (2 * · + 1) ++ [27, 33]

/-- The nodes after those of the operations. -/
def others : List (Node Word Instruction) :=
  [.oneOf (.except (Op.all.map Word.op ++ [.opening, .closing])),
    .emit 26 (.ofSymbols Instruction.ofWords),
    .oneOf (.of [.opening]),
    .rule 0,
    .star 29,
    .oneOf (.of [.closing]),
    .seq [28, 30, 31],
    .fold 32 Instruction.quote,
    .alt ways,
    .rule 0,
    .star 35]

/-- The nodes of the grammar of programs.  A literal is at place 27, the loop inside a
quotation at 30, the parts of a quotation at 32, the quotation at 33 and an instruction at
34; the program is the loop at 36. -/
def nodes : Arena Word Instruction := (operations ++ others).toArray

/-- The rules of the grammar of programs. -/
def rules : Array Rule := #[⟨"instruction", 34⟩]

/-- The grammar of programs. -/
def table : Grammar Word Instruction where
  nodes := nodes
  rules := rules
  nullable := Nullable.compute nodes rules
  start := 36

/-- The builder that holds the rule of instructions. -/
def builder : Builder Word Instruction :=
  ⟨nodes.extract 0 35, #[⟨"instruction", some 34⟩]⟩

theorem define_instruction :
    (Builder.new.declare "instruction").1.define 0 (operation <|> literal <|> quotation 0) =
      .ok builder :=
  rfl

theorem accept_table : table.rejectLeftRecursion = .ok () := by
  decide +kernel

theorem build_table : builder.build (.star (.rule 0)) = .ok table :=
  Builder.build_of_accepted rfl rfl rfl accept_table

/-- Building the grammar of programs never fails. -/
theorem grammar_eq : grammar = .ok table := by
  show ((Builder.new.declare "instruction").1.define 0 (operation <|> literal <|> quotation 0) >>=
    fun builder => builder.build (.star (.rule 0))) = _
  simp only [define_instruction, build_table, bind, Except.bind]

/-- The grammar of programs is built. -/
theorem table_isBuilt : table.IsBuilt :=
  ⟨builder, .star (.rule 0), .define (.declare "instruction" .new) define_instruction, build_table⟩

end Ramify.Stack.Program
