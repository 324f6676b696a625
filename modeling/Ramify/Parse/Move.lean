import Ramify.Parse.Branch

/-!
# Moves between symbols

Between two symbols a branch makes *moves*: it enters nodes and returns into
open constructs until it waits for a symbol, or has nothing left to match, or
finds that it cannot go on.  `Cursor.move` is one such move.  It takes no
symbol; guards and observers look at the next one.

Where ways part a move leads to several branches.  Their order is the order in
which they are followed up: the way that the branch itself takes comes first,
and the others from the last to the first.
-/

namespace Ramify

variable {σ τ : Type}

/-- Where a parse stands between two symbols. -/
structure Cursor (σ τ : Type) where
  /-- The grammar in use. -/
  grammar : Grammar σ τ
  /-- The number of symbols consumed. -/
  position : Nat
  /-- The next symbol, or none at the end of the input. -/
  next : Option σ

/-- A report of an observer: its label and the symbol at hand. -/
structure Call (σ : Type) where
  /-- The label of the observer. -/
  label : String
  /-- The symbol it saw. -/
  symbol : σ

/-- What becomes of a branch that moves: the reports it makes and the branches
it turns into, none if it cannot go on. -/
structure Turn (σ τ : Type) where
  /-- The reports of observers. -/
  calls : List (Call σ)
  /-- The branches it turns into, in the order in which they are followed up. -/
  branches : List (Branch σ τ)

namespace Turn

/-- The branch cannot go on. -/
def dead : Turn σ τ := ⟨[], []⟩

/-- The branch goes on. -/
def go (b : Branch σ τ) : Turn σ τ := ⟨[], [b]⟩

/-- Ways part; the branch itself takes the first. -/
def split (branches : List (Branch σ τ)) : Turn σ τ :=
  match branches with
  | [] => dead
  | own :: others => ⟨[], own :: others.reverse⟩

end Turn

namespace Cursor

variable [DecidableEq σ]

/-- Whether the next symbol passes the guard of a node, if it has one. -/
def admits (here : Cursor σ τ) (id : NodeId) : Bool :=
  (here.grammar.guard? id).all (·.admits here.next)

/-- Enters a node. -/
def descend (here : Cursor σ τ) (b : Branch σ τ) (id : NodeId) : Turn σ τ :=
  match here.grammar.nodes[id]? with
  | none => .dead
  | some .empty => .go b
  | some (.oneOf _) | some (.literal _) => .go (b.push id 0 here.position)
  | some (.guard set) => if set.admits here.next then .go b else .dead
  | some (.seq []) => .go b
  | some (.seq [only]) => .go (b.aim only)
  | some (.seq (first :: _)) => .go ((b.push id 0 here.position).aim first)
  | some (.alt choices) =>
    .split <| (choices.zipIdx.filter fun (choice, _) => here.admits choice).map
      fun (choice, index) => (b.via id index here.position).aim choice
  | some (.star body) =>
    .split [((b.via id 1 here.position).push id here.position here.position).aim body,
      b.via id 0 here.position]
  | some (.times body count) =>
    match count with
    | 0 => .go b
    | 1 => .go (b.aim body)
    | _ => .go ((b.push id 0 here.position).aim body)
  | some (.rule index) =>
    match here.grammar.body? index with
    | some body => .go (b.aim body)
    | none => .dead
  | some (.emit body (.fixed _)) => .go ((b.push id 0 here.position).aim body)
  | some (.emit body (.ofSymbols _)) =>
    .go (((b.listen here.position).push id 0 here.position).aim body)
  | some (.fold body _) => .go ((b.push id 0 here.position).aim body)
  | some (.observe observer) =>
    match observer.consumes, observer.passes with
    | false, passes =>
      ⟨here.next.toList.map (Call.mk observer.label), if passes then [b] else []⟩
    | true, false => .go (b.push id 0 here.position)
    | true, true =>
      .split [(b.via id 1 here.position).push id 0 here.position, b.via id 0 here.position]

/-- Returns into the innermost open construct, given by its frame, of which the
part in progress has matched.

The last part of a sequence, and the last round of a fixed repetition, runs
without the construct on the stack.  A round of a loop that consumed nothing
would only repeat the way out that was taken before it, and ends. -/
def resume (here : Cursor σ τ) (b : Branch σ τ) (frame : Frame) : Turn σ τ :=
  match here.grammar.nodes[frame.node]? with
  | none => .dead
  | some (.seq parts) =>
    match parts[frame.progress + 1]? with
    | none => .dead
    | some part =>
      .go ((if frame.progress + 2 = parts.length then b.pop
        else b.reach (frame.progress + 1)).aim part)
  | some (.times body count) =>
    .go ((if frame.progress + 2 = count then b.pop else b.reach (frame.progress + 1)).aim body)
  | some (.star body) =>
    if frame.progress = here.position then .dead
    else
      .split [((b.reach here.position).via frame.node 1 here.position).aim body,
        b.pop.via frame.node 0 here.position]
  | some (.emit _ (.fixed token)) => .go (b.pop.emit token)
  | some (.emit _ (.ofSymbols make)) =>
    .go (b.pop.unlisten.emit (make (b.heardSince frame.symbolsBefore)))
  | some (.fold _ merge) => .go (b.pop.gather frame.tokensBefore merge)
  | some _ => .go b.pop

/-- Whether a branch whose innermost construct is `id` waits for a symbol. -/
def waitsAt (here : Cursor σ τ) (id : NodeId) : Bool :=
  here.grammar.nodes[id]?.any Node.consumes

/-- One move of a branch, or none if it rests: it waits for a symbol or is complete. -/
def move (here : Cursor σ τ) (b : Branch σ τ) : Option (Turn σ τ) :=
  match b.target, b.frames with
  | some id, _ => some (here.descend { b with target := none } id)
  | none, [] => none
  | none, frame :: _ => if here.waitsAt frame.node then none else some (here.resume b frame)

end Cursor

/-! ## Taking a symbol -/

namespace Grammar

variable [DecidableEq σ]

/-- Gives a symbol to a branch at rest; none if it does not fit. -/
def consume (g : Grammar σ τ) (symbol : σ) (b : Branch σ τ) : Option (Branch σ τ) :=
  match b.frames with
  | [] => none
  | frame :: _ =>
    match g.nodes[frame.node]? with
    | some (.oneOf set) => if set.contains symbol then some (b.pop.hear symbol) else none
    | some (.literal run) =>
      if run[frame.progress]? = some symbol then
        some ((if frame.progress + 1 = run.length then b.pop
          else b.reach (frame.progress + 1)).hear symbol)
      else none
    | some (.observe observer) =>
      if observer.consumes then some (b.pop.hear symbol) else none
    | _ => none

/-- The report that a branch at rest makes when it is given a symbol. -/
def callsOn (g : Grammar σ τ) (symbol : σ) (b : Branch σ τ) : List (Call σ) :=
  match b.frames with
  | [] => []
  | frame :: _ =>
    match g.nodes[frame.node]? with
    | some (.observe observer) => if observer.consumes then [⟨observer.label, symbol⟩] else []
    | _ => []

end Grammar

end Ramify
