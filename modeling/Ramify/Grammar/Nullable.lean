import Ramify.Grammar.Basic

/-!
# Nodes that match the empty text

Which nodes can match without a symbol is the least solution of one equation
per node.  Rules make the equations circular, so the solution is reached from
below: a sweep goes through the arena in order and marks every node whose
equation holds under the marks made so far, and sweeps are repeated until one
marks nothing.  A sweep that goes on marks a node, so there are at most as many
sweeps as nodes, and one more to see that nothing changes.
-/

namespace Ramify.Nullable

variable {σ τ : Type}

/-- Marks by place. -/
abbrev Marks := Array Bool

/-- Whether a node matches the empty text, given that the marked nodes do. -/
def holds (rules : Array Rule) (marks : Marks) : Node σ τ → Bool
  | .empty | .guard _ | .star _ => true
  | .oneOf _ => false
  | .literal run => run.isEmpty
  | .seq parts => parts.all (marks.getD · false)
  | .alt choices => choices.any (marks.getD · false)
  | .times body count => count == 0 || marks.getD body false
  | .rule index => rules[index]?.any fun rule => marks.getD rule.body false
  | .emit body _ | .fold body _ => marks.getD body false
  | .observe observer => !observer.consumes || observer.passes

/-- Marks the node at a place if it is found to match the empty text. -/
def mark (nodes : Arena σ τ) (rules : Array Rule) (marks : Marks) (id : NodeId) : Marks :=
  if nodes[id]?.any (holds rules marks) then marks.setIfInBounds id true else marks

/-- Goes once through the arena. -/
def sweep (nodes : Arena σ τ) (rules : Array Rule) (marks : Marks) : Marks :=
  (List.range nodes.size).foldl (mark nodes rules) marks

/-- Sweeps until nothing changes, and at most `rounds` times. -/
def close (nodes : Arena σ τ) (rules : Array Rule) : (rounds : Nat) → Marks → Marks
  | 0, marks => marks
  | rounds + 1, marks =>
    let next := sweep nodes rules marks
    if next = marks then marks else close nodes rules rounds next

/-- For every node whether it can match the empty text. -/
def compute (nodes : Arena σ τ) (rules : Array Rule) : Marks :=
  close nodes rules (nodes.size + 1) (Array.replicate nodes.size false)

end Ramify.Nullable
