import Ramify.Grammar.Basic
import Ramify.Fault

/-!
# Left corners and left recursion

The *left corners* of a node are the nodes that a branch which enters it may
enter next before it takes a symbol.  A grammar whose left corners form a cycle
would let a branch run in a circle, so such grammars are refused.

The check walks the graph depth first from every node in turn.  A node is
marked open while the walk is inside it and closed when the walk has left it;
meeting an open node closes a cycle.  Parts stand before the nodes they belong
to, so a cycle passes through a rule, and the first one on it is blamed.
-/

namespace Ramify

variable {σ τ : Type}

/-- The name given to a rule that was never declared. -/
def placeholderName (rule : RuleId) : String := s!"#{rule}"

namespace Grammar

/-- The parts of a sequence up to the first that needs a symbol. -/
def leadingParts (g : Grammar σ τ) : List NodeId → List NodeId
  | [] => []
  | part :: parts => part :: if g.isNullable part then g.leadingParts parts else []

/-- The nodes that may be entered next, before a symbol, by a branch that enters `id`. -/
def leftCorners (g : Grammar σ τ) (id : NodeId) : List NodeId :=
  match g.nodes[id]? with
  | some (.seq parts) => g.leadingParts parts
  | some (.alt choices) => choices
  | some (.star body) | some (.emit body _) | some (.fold body _) => [body]
  | some (.times body count) => if count = 0 then [] else [body]
  | some (.rule index) => (g.body? index).toList
  | _ => []

end Grammar

namespace LeftRecursion

/-- How far the walk has come with a node. -/
inductive Stage where
  /-- Not reached yet. -/
  | fresh
  /-- Reached, and not left yet. -/
  | opened
  /-- Left for good. -/
  | closed
  deriving DecidableEq, Inhabited

/-- Stages by place. -/
abbrev Stages := Array Stage

/-- The name of the rule that a node stands for, if it stands for one. -/
def ruleName? (g : Grammar σ τ) (id : NodeId) : Option String :=
  match g.nodes[id]? with
  | some (.rule index) => g.rules[index]?.map Rule.name
  | _ => none

/-- The part of an open path, newest node first, that lies on the cycle through
`id`, oldest node first. -/
def cycle (path : List NodeId) (id : NodeId) : List NodeId :=
  (path.takeWhile (· ≠ id) ++ (path.dropWhile (· ≠ id)).take 1).reverse

/-- The fault of a walk that meets the open node `id` again. -/
def blame (g : Grammar σ τ) (path : List NodeId) (id : NodeId) : Fault :=
  .leftRecursion (((cycle path id).findSome? (ruleName? g)).getD (placeholderName 0))

/-- What a walk does when it comes to a node: a closed one is passed by, an open
one closes a cycle, and `descend` walks into a fresh one. -/
def meet (g : Grammar σ τ) (path : List NodeId) (descend : Stages → NodeId → Except Fault Stages)
    (stages : Stages) (id : NodeId) : Except Fault Stages :=
  match stages.getD id .closed with
  | .closed => .ok stages
  | .opened => .error (blame g path id)
  | .fresh => descend stages id

/-- Walks into a fresh node.  `path` holds the nodes that are open around it,
newest first; as these differ from each other, `fuel` need not exceed their
greatest number. -/
def explore (g : Grammar σ τ) : (fuel : Nat) → List NodeId → Stages → NodeId → Except Fault Stages
  | 0, _, stages, _ => .ok stages
  | fuel + 1, path, stages, id => do
    let inside := id :: path
    let stages ← (g.leftCorners id).foldlM (meet g inside (explore g fuel inside))
      (stages.setIfInBounds id .opened)
    return stages.setIfInBounds id .closed

end LeftRecursion

/-- Refuses a grammar in which a node is among its own left corners, directly or
through others. -/
def Grammar.rejectLeftRecursion (g : Grammar σ τ) : Except Fault Unit := do
  let fresh := Array.replicate g.nodes.size LeftRecursion.Stage.fresh
  let _ ← (List.range g.nodes.size).foldlM
    (LeftRecursion.meet g [] (LeftRecursion.explore g (g.nodes.size + 1) [])) fresh
  return ()

end Ramify
