import Ramify.Grammar.Basic

/-!
# Branches

A branch is one candidate derivation of the input so far.  It holds the open
constructs of the grammar as a stack of frames, the tokens emitted, the symbols
that open emissions listen to, and a trail of every choice it made.

Two branches that stand at the same place and made the same choices are the
same derivation; whatever else they hold follows from these.
-/

namespace Ramify

variable {σ τ : Type}

/-- An open construct of the grammar on the stack of a branch.

What `progress` counts depends on the node: the part in progress of a sequence
or of a fixed repetition, the symbols consumed when the current round of a loop
began, the symbols of a run matched so far; for other nodes it is zero. -/
structure Frame where
  /-- The node that is open. -/
  node : NodeId
  /-- How far the construct has come. -/
  progress : Nat
  /-- The number of symbols consumed when the construct was entered. -/
  symbolsBefore : Nat
  /-- The number of tokens on the branch when the construct was entered. -/
  tokensBefore : Nat
  deriving DecidableEq

/-- The way a branch took at a fork.

At a choice the ways are counted from zero.  At a loop the way 0 leaves and 1 goes
round once more; at an observer that may match with or without a symbol, 0 passes
and 1 waits for one. -/
structure Choice where
  /-- The node at which ways part. -/
  node : NodeId
  /-- The way taken. -/
  way : Nat
  /-- The number of symbols consumed before the fork. -/
  position : Nat
  deriving DecidableEq

/-- One candidate derivation of the input so far. -/
structure Branch (σ τ : Type) where
  /-- The open constructs, innermost first. -/
  frames : List Frame := []
  /-- The number of open constructs, kept so that it need not be counted. -/
  depth : Nat := 0
  /-- The node to enter before anything else happens. -/
  target : Option NodeId := none
  /-- The symbols consumed since the outermost listening emission was opened,
  newest first. -/
  heard : List σ := []
  /-- The number of symbols consumed before the oldest of `heard`. -/
  heardFrom : Nat := 0
  /-- The number of open emissions that listen to symbols. -/
  listeners : Nat := 0
  /-- The tokens emitted so far. -/
  tokens : List τ := []
  /-- Every choice made, newest first. -/
  trail : List Choice := []
  /-- The depth is the number of frames. -/
  depth_eq : depth = frames.length := by rfl

namespace Branch

/-- The branch that is about to enter `node`. -/
def start (node : NodeId) : Branch σ τ := { target := some node }

/-- Whether nothing is left to match. -/
def isDone (b : Branch σ τ) : Bool :=
  b.frames.isEmpty && b.target.isNone

/-! ## Movement -/

/-- Sets the node to enter next. -/
def aim (b : Branch σ τ) (node : NodeId) : Branch σ τ :=
  { b with target := some node }

/-- Opens a construct. -/
def push (b : Branch σ τ) (node : NodeId) (progress position : Nat) : Branch σ τ :=
  { b with
    frames := ⟨node, progress, position, b.tokens.length⟩ :: b.frames
    depth := b.depth + 1
    depth_eq := by rw [b.depth_eq, List.length_cons] }

/-- Closes the innermost construct. -/
def pop (b : Branch σ τ) : Branch σ τ :=
  { b with
    frames := b.frames.tail
    depth := b.depth - 1
    depth_eq := by rw [b.depth_eq, List.length_tail] }

/-- Sets how far the innermost construct has come. -/
def reach (b : Branch σ τ) (progress : Nat) : Branch σ τ :=
  { b with
    frames := b.frames.modifyHead fun frame => { frame with progress }
    depth_eq := by rw [b.depth_eq, List.length_modifyHead] }

/-- Records the way taken at a fork. -/
def via (b : Branch σ τ) (node : NodeId) (way position : Nat) : Branch σ τ :=
  { b with trail := ⟨node, way, position⟩ :: b.trail }

/-! ## Symbols and tokens -/

/-- Opens an emission that listens to symbols. -/
def listen (b : Branch σ τ) (position : Nat) : Branch σ τ :=
  if b.listeners = 0 then { b with heard := [], heardFrom := position, listeners := 1 }
  else { b with listeners := b.listeners + 1 }

/-- Closes an emission that listens to symbols. -/
def unlisten (b : Branch σ τ) : Branch σ τ :=
  if b.listeners ≤ 1 then { b with heard := [], listeners := 0 }
  else { b with listeners := b.listeners - 1 }

/-- Keeps a consumed symbol if an emission listens. -/
def hear (b : Branch σ τ) (symbol : σ) : Branch σ τ :=
  if b.listeners = 0 then b else { b with heard := symbol :: b.heard }

/-- The symbols heard since `mark` symbols were consumed, in the order of the input. -/
def heardSince (b : Branch σ τ) (mark : Nat) : List σ :=
  b.heard.reverse.drop (mark - b.heardFrom)

/-- Emits a token. -/
def emit (b : Branch σ τ) (token : τ) : Branch σ τ :=
  { b with tokens := b.tokens ++ [token] }

/-- Replaces the tokens from number `mark` on by one made of them. -/
def gather (b : Branch σ τ) (mark : Nat) (merge : List τ → τ) : Branch σ τ :=
  { b with tokens := b.tokens.take mark ++ [merge (b.tokens.drop mark)] }

/-! ## Identity -/

/-- Whether two branches stand at the same place after the same choices. -/
def isSame (a b : Branch σ τ) : Bool :=
  a.frames = b.frames && a.target = b.target && a.trail = b.trail

/-- Keeps the first of all branches that are the same, each given with the length of its
trail.  Trails of different lengths differ, so the lengths are compared first. -/
def firsts : List (Nat × Branch σ τ) → List (Nat × Branch σ τ)
  | [] => []
  | (n, b) :: rest => (n, b) :: (firsts rest).filter fun (m, other) => !(n == m && b.isSame other)

/-- Keeps the first of all branches that are the same. -/
def distinct (branches : List (Branch σ τ)) : List (Branch σ τ) :=
  (firsts (branches.map fun b => (b.trail.length, b))).map Prod.snd

/-! ## Diagnostic text -/

instance : Inspect Frame where
  inspect frame :=
    Text.record "Frame"
      [("node", inspect frame.node), ("state", inspect frame.progress),
       ("symbol_mark", inspect frame.symbolsBefore), ("token_mark", inspect frame.tokensBefore)]

instance : Inspect Choice where
  inspect choice :=
    Text.record "Choice"
      [("node", inspect choice.node), ("alternative", inspect choice.way),
       ("at", inspect choice.position)]

instance [Inspect σ] [Inspect τ] : Inspect (Branch σ τ) where
  inspect b :=
    Text.record "Branch"
      [("frames", inspect b.frames.reverse), ("pending", inspect b.target),
       ("symbols", inspect b.heard.reverse), ("symbol_base", inspect b.heardFrom),
       ("capturing", inspect b.listeners), ("tokens", inspect b.tokens),
       ("derivation", inspect b.trail.reverse)]

end Branch

end Ramify
