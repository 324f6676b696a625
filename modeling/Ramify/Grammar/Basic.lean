import Ramify.Arena

/-!
# Grammars

A grammar is an arena of nodes, the rules that name some of them, and the node
at which a parse starts.  It also remembers which nodes can match the empty
text.  The grammars that are fit to run are those that a `Builder` hands out.
-/

namespace Ramify

variable {σ τ : Type}

/-- A named node. -/
structure Rule where
  /-- The name under which the rule was declared. -/
  name : String
  /-- The node that the rule stands for. -/
  body : NodeId
  deriving DecidableEq

/-- A grammar over symbols `σ` with tokens `τ`. -/
structure Grammar (σ τ : Type) where
  /-- All nodes, by place. -/
  nodes : Arena σ τ
  /-- All rules, in the order of their declaration. -/
  rules : Array Rule
  /-- For every place whether the node there can match the empty text. -/
  nullable : Array Bool
  /-- The node at which a parse starts. -/
  start : NodeId

namespace Grammar

/-- The body of a rule. -/
def body? (g : Grammar σ τ) (rule : RuleId) : Option NodeId :=
  g.rules[rule]?.map Rule.body

/-- Whether the node at a place can match the empty text. -/
def isNullable (g : Grammar σ τ) (id : NodeId) : Bool :=
  g.nullable.getD id false

/-- The set that guards a node: the one that entering the node tests before
anything else, where the node is a guard or a sequence that begins with one. -/
def guard? (g : Grammar σ τ) (id : NodeId) : Option (SymbolSet σ) :=
  match g.nodes[id]? with
  | some (.guard set) => some set
  | some (.seq (first :: _)) =>
    match g.nodes[first]? with
    | some (.guard set) => some set
    | _ => none
  | _ => none

instance : Inspect Rule where
  inspect rule := Text.record "Rule" [("name", inspect rule.name), ("body", inspect rule.body)]

instance [Inspect σ] [Inspect τ] : Inspect (Grammar σ τ) where
  inspect g :=
    Text.record "Grammar"
      [("nodes", inspect g.nodes), ("rules", inspect g.rules), ("nullable", inspect g.nullable),
       ("start", inspect g.start)]

end Grammar

end Ramify
