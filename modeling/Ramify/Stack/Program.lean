import Ramify.Stack.Word
import Ramify.Parse.View

/-!
# Programs of the stack language

A program is a list of instructions.  The grammar has one rule, that of an
instruction: an operation, a word that stands for itself, or a quotation, which
is any number of instructions between brackets.
-/

namespace Ramify.Stack

/-- An instruction of a program. -/
inductive Instruction where
  /-- Puts an integer on the stack. -/
  | push (value : Int64)
  /-- Runs a primitive operation. -/
  | op (op : Op)
  /-- Runs what a name stands for. -/
  | word (name : String)
  /-- Puts a quotation on the stack. -/
  | quote (body : List Instruction)

namespace Instruction

/-- The instruction of words that stand for themselves. -/
def ofWords : List Word → Instruction
  | [.int value] => .push value
  | [.name text] => .word text
  | words => .word (String.join (words.map Word.spelling))

/-! ## Instructions as data -/

mutual

/-- The datum of an instruction. -/
def toDatum : Instruction → Datum
  | .push value => .list [.str "push", .int value]
  | .op o => .str o.name
  | .word name => .list [.str "word", .str name]
  | .quote body => .list [.str "quote", .list (toData body)]

/-- The data of a list of instructions. -/
def toData : List Instruction → List Datum
  | [] => []
  | i :: is => toDatum i :: toData is

end

instance : ToDatum Instruction := ⟨toDatum⟩

mutual

/-- The diagnostic text of an instruction. -/
def describe : Instruction → String
  | .push value => Text.call "Push" [inspect value]
  | .op o => inspect o
  | .word name => Text.call "Word" [inspect name]
  | .quote body => Text.call "Quote" [Text.list (describeAll body)]

/-- The diagnostic texts of a list of instructions. -/
def describeAll : List Instruction → List String
  | [] => []
  | i :: is => describe i :: describeAll is

end

instance : Inspect Instruction := ⟨describe⟩

end Instruction

/-! ## The grammar -/

namespace Program

/-- One of the primitive operations. -/
def operation : Expr Word Instruction :=
  .alt <| Op.all.map fun o => .emit (.oneOf (.of [.op o])) (.fixed (.op o))

/-- A word that is neither an operation nor a bracket. -/
def literal : Expr Word Instruction :=
  .emit (.oneOf (.except (Op.all.map Word.op ++ [.opening, .closing])))
    (.ofSymbols Instruction.ofWords)

/-- Instructions between brackets; `instruction` is the rule of instructions. -/
def quotation (instruction : RuleId) : Expr Word Instruction :=
  .fold (.oneOf (.of [.opening]) ++ .star (.rule instruction) ++ .oneOf (.of [.closing]))
    Instruction.quote

/-- The grammar of a program: any number of instructions. -/
def grammar : Except Fault (Grammar Word Instruction) := do
  let (builder, instruction) := Builder.new.declare "instruction"
  let builder ← builder.define instruction (operation <|> literal <|> quotation instruction)
  builder.build (.star (.rule instruction))

end Program

end Ramify.Stack
