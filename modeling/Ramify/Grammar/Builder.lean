import Ramify.Grammar.LeftCorner
import Ramify.Grammar.Nullable
import Ramify.Note

/-!
# Building grammars

A `Builder` collects rules and their bodies.  A rule is declared first and
defined once, at any later time, so rules can mention each other and
themselves.  `Builder.build` closes the collection and hands out a grammar only
if every rule has a body, every mention of a rule is of a declared one, and no
rule is left-recursive; otherwise the first of these mistakes is reported.
-/

namespace Ramify

variable {σ τ : Type}

/-- A declared rule, with its body once it has one. -/
structure Declaration where
  /-- The name of the rule. -/
  name : String
  /-- The root of its body. -/
  body : Option NodeId := none
  deriving DecidableEq

/-- The rule of a declaration, which must have a body. -/
def Declaration.close (declaration : Declaration) : Except Fault Rule :=
  match declaration.body with
  | some body => .ok ⟨declaration.name, body⟩
  | none => .error (.undefinedRule declaration.name)

/-- A grammar in the making. -/
structure Builder (σ τ : Type) where
  /-- The nodes of all bodies so far. -/
  nodes : Arena σ τ := #[]
  /-- The declared rules. -/
  rules : Array Declaration := #[]

namespace Builder

/-- The builder that holds nothing. -/
def new : Builder σ τ := {}

/-- Declares a rule, and gives the index by which expressions mention it. -/
def declare (builder : Builder σ τ) (name : String) : Builder σ τ × RuleId :=
  (⟨builder.nodes, builder.rules.push { name }⟩, builder.rules.size)

/-- Gives a declared rule its body. -/
def define (builder : Builder σ τ) (rule : RuleId) (body : Expr σ τ) :
    Except Fault (Builder σ τ) :=
  match builder.rules[rule]? with
  | none => .error (.undefinedRule (placeholderName rule))
  | some ⟨name, some _⟩ => .error (.redefinedRule name)
  | some ⟨name, none⟩ =>
    let (nodes, id) := Arena.place builder.nodes body
    .ok ⟨nodes, builder.rules.setIfInBounds rule ⟨name, some id⟩⟩

/-- Declares a rule and defines it. -/
def addRule (builder : Builder σ τ) (name : String) (body : Expr σ τ) :
    Except Fault (Builder σ τ × RuleId) := do
  let (builder, rule) := builder.declare name
  return (← builder.define rule body, rule)

/-! ## Closing -/

/-- The first rule that a node mentions without there being one of that index. -/
def dangling? (nodes : Arena σ τ) (rules : Array Rule) : Option RuleId :=
  nodes.toList.findSome? fun
    | .rule index => if index < rules.size then none else some index
    | _ => none

/-- Closes the collection with the expression at which a parse starts. -/
def build (builder : Builder σ τ) (start : Expr σ τ) : Except Fault (Grammar σ τ) := do
  let (nodes, start) := Arena.place builder.nodes start
  let rules := (← builder.rules.toList.mapM Declaration.close).toArray
  if let some index := dangling? nodes rules then
    throw (.undefinedRule (placeholderName index))
  let g : Grammar σ τ := { nodes, rules, nullable := Nullable.compute nodes rules, start }
  g.rejectLeftRecursion
  return g

end Builder

/-- The note that building a grammar leaves. -/
def Grammar.builtNote (g : Grammar σ τ) : Note :=
  .built g.nodes.size g.rules.size

instance : Inspect Declaration where
  inspect declaration :=
    Text.record "RuleSlot"
      [("name", inspect declaration.name), ("body", inspect declaration.body)]

instance [Inspect σ] [Inspect τ] : Inspect (Builder σ τ) where
  inspect builder :=
    Text.record "GrammarBuilder"
      [("nodes", inspect builder.nodes), ("rules", inspect builder.rules)]

end Ramify
