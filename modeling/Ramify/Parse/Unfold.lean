import Ramify.Parse.Move
import Ramify.Limits

/-!
# Unfolding

Unfolding a branch follows its moves until every branch that comes of it rests
or dies.  What happens on the way is a list of events, in the order in which
the moves are followed up: an observer reports, a branch comes to rest, or a branch
is found with more frames than allowed, which ends the whole affair.

The moves of a branch come to an end because no node of a built grammar is among
its own left corners, and because a round of a loop that consumes nothing dies.
Along one way, entering a node whose longest chain of left corners has `k` nodes
takes at most `w ^ k` moves to come back out of it, where `w` is the *spread* of
the grammar; so the number of frames and that of nodes bound the moves.
-/

namespace Ramify

variable {σ τ : Type}

/-- What happens while a branch unfolds. -/
inductive Event (σ τ : Type) where
  /-- An observer reports. -/
  | called (call : Call σ)
  /-- A branch comes to rest. -/
  | rested (branch : Branch σ τ)
  /-- A branch has more frames than allowed. -/
  | overran (depth : Nat)

/-- The greatest number of parts that a node runs through. -/
def Node.arity : Node σ τ → Nat
  | .seq parts => parts.length
  | .alt choices => choices.length
  | .times _ count => count
  | _ => 1

/-- A bound on the moves that one node makes in itself. -/
def Grammar.spread (g : Grammar σ τ) : Nat :=
  2 * (g.nodes.foldl (fun most node => max most node.arity) 0) + 3

/-- A bound on the moves, for each open construct, of a branch that unfolds. -/
def Grammar.moveBound (g : Grammar σ τ) : Nat :=
  Nat.pow g.spread (g.nodes.size + 1)

/-- Follows the moves of a branch, each given by `move`, and at most `fuel` of
them along one way. -/
def Branch.follow (move : Branch σ τ → Option (Turn σ τ)) (maxDepth : Nat) :
    (fuel : Nat) → Branch σ τ → List (Event σ τ)
  | 0, _ => []
  | fuel + 1, b =>
    if Limits.isExceeded maxDepth b.depth then [.overran b.depth]
    else
      match move b with
      | none => [.rested b]
      | some turn =>
        turn.calls.map .called ++ turn.branches.flatMap (Branch.follow move maxDepth fuel)

/-- Everything that happens while the given branches unfold one after the other. -/
def Cursor.unfold [DecidableEq σ] (here : Cursor σ τ) (maxDepth : Nat)
    (branches : List (Branch σ τ)) : List (Event σ τ) :=
  let bound := here.grammar.moveBound
  branches.flatMap fun b => b.follow here.move maxDepth ((b.depth + 1) * bound + 1)

/-- What unfolding came to. -/
structure Unfolded (σ τ : Type) where
  /-- The branches at rest. -/
  rested : List (Branch σ τ) := []
  /-- The reports of observers. -/
  calls : List (Call σ) := []
  /-- The depth of the branch that ended the affair, if one did. -/
  overrun : Option Nat := none

/-- Sums up events.  Nothing counts after a branch that is too deep. -/
def Unfolded.ofEvents : List (Event σ τ) → Unfolded σ τ
  | [] => {}
  | .overran depth :: _ => { overrun := some depth }
  | .rested b :: events =>
    let rest := ofEvents events
    { rest with rested := b :: rest.rested }
  | .called call :: events =>
    let rest := ofEvents events
    { rest with calls := call :: rest.calls }

end Ramify
