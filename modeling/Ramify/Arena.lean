import Ramify.Expr

/-!
# The arena of a grammar

A grammar keeps its expressions flattened in one array, its *arena*.  A `Node`
is an expression whose parts are replaced by their places in the arena, so that
a parse can name any point of the grammar by a number.

Flattening an expression appends its parts before itself: a part always stands
at a smaller place than the node it belongs to, and the root is the last node
added.
-/

namespace Ramify

variable {σ τ : Type}

/-- The place of a node in the arena. -/
abbrev NodeId := Nat

/-- The place of a rule in the list of rules. -/
abbrev RuleId := Nat

/-- An expression with its parts given by place. -/
inductive Node (σ τ : Type) where
  /-- The empty text. -/
  | empty
  /-- One symbol of a set. -/
  | oneOf (set : SymbolSet σ)
  /-- A run of symbols. -/
  | literal (run : List σ)
  /-- The empty text where the next symbol is in a set. -/
  | guard (set : SymbolSet σ)
  /-- Nodes one after the other. -/
  | seq (parts : List NodeId)
  /-- Any one of several nodes. -/
  | alt (choices : List NodeId)
  /-- A node any number of times. -/
  | star (body : NodeId)
  /-- A node a fixed number of times. -/
  | times (body : NodeId) (count : Nat)
  /-- The body of a rule. -/
  | rule (index : RuleId)
  /-- A node whose match adds one token after its own. -/
  | emit (body : NodeId) (yields : Yield σ τ)
  /-- A node whose tokens are merged into one. -/
  | fold (body : NodeId) (merge : List τ → τ)
  /-- An observer. -/
  | observe (observer : Observer)

/-- Nodes by place. -/
abbrev Arena (σ τ : Type) := Array (Node σ τ)

namespace Node

/-- Whether a branch waits on the node for a symbol. -/
def consumes : Node σ τ → Bool
  | .oneOf _ | .literal _ => true
  | .observe observer => observer.consumes
  | _ => false

instance [Inspect σ] [Inspect τ] : Inspect (Node σ τ) where
  inspect
    | .empty => "Empty"
    | .oneOf set => Text.record "TerminalSet" set.fields
    | .literal run => Text.record "TerminalLiteral" [("symbols", inspect run)]
    | .guard set => Text.record "Barrier" set.fields
    | .seq parts => Text.record "Sequence" [("children", inspect parts)]
    | .alt choices => Text.record "Disjunction" [("children", inspect choices)]
    | .star body => Text.record "Recurse" [("body", inspect body)]
    | .times body count => Text.record "Repeat" [("body", inspect body), ("count", inspect count)]
    | .rule index => Text.record "Reference" [("rule", inspect index)]
    | .emit body yields =>
      Text.record "Emit" [("body", inspect body), ("emission", inspect yields)]
    | .fold body _ => Text.openRecord "Reemit" [("body", inspect body)]
    | .observe observer => Text.record "Custom" [("hook", inspect observer)]

end Node

/-! ## Flattening -/

namespace Arena

/-- Appends a node and gives its place. -/
def add (arena : Arena σ τ) (node : Node σ τ) : Arena σ τ × NodeId :=
  (arena.push node, arena.size)

mutual

/-- Appends an expression, parts first, and gives the place of its root.  An
empty run of symbols is kept as the empty text. -/
def place (arena : Arena σ τ) : Expr σ τ → Arena σ τ × NodeId
  | .empty => add arena .empty
  | .oneOf set => add arena (.oneOf set)
  | .literal run => add arena (if run.isEmpty then .empty else .literal run)
  | .guard set => add arena (.guard set)
  | .seq parts =>
    let (arena, ids) := placeAll arena parts
    add arena (.seq ids)
  | .alt choices =>
    let (arena, ids) := placeAll arena choices
    add arena (.alt ids)
  | .star body =>
    let (arena, id) := place arena body
    add arena (.star id)
  | .times body count =>
    let (arena, id) := place arena body
    add arena (.times id count)
  | .rule index => add arena (.rule index)
  | .emit body yields =>
    let (arena, id) := place arena body
    add arena (.emit id yields)
  | .fold body merge =>
    let (arena, id) := place arena body
    add arena (.fold id merge)
  | .observe observer => add arena (.observe observer)

/-- Appends expressions one after the other and gives the places of their roots. -/
def placeAll (arena : Arena σ τ) : List (Expr σ τ) → Arena σ τ × List NodeId
  | [] => (arena, [])
  | e :: es =>
    let (arena, id) := place arena e
    let (arena, ids) := placeAll arena es
    (arena, id :: ids)

end

end Arena

end Ramify
