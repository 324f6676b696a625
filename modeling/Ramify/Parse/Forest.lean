import Ramify.Parse.Unfold
import Ramify.Grammar.Builder

/-!
# Forests

A forest is the state of one parse: every live branch, the number of symbols
taken, and the limit that stopped the parse, if one did.  `take` goes on by
one symbol, `close` ends the parse, and `restart` begins anew.

A parse is accepted if exactly one derivation matches the whole input.  Several
derivations are reported as ambiguous and never decided between.

An operation hands back an `Outcome`: the forest afterwards, its result, the
reports that observers made, and notes on what happened.
-/

namespace Ramify

variable {σ τ α ρ : Type}

/-- The state of one parse. -/
structure Forest (σ τ : Type) where
  /-- The grammar in use. -/
  grammar : Grammar σ τ
  /-- The limits in force. -/
  limits : Limits
  /-- The live branches. -/
  branches : List (Branch σ τ)
  /-- The number of symbols taken. -/
  consumed : Nat
  /-- The limit that stopped the parse. -/
  fault : Option Fault

/-- What an operation on a forest hands back. -/
structure Outcome (σ τ ρ : Type) where
  /-- The forest afterwards. -/
  forest : Forest σ τ
  /-- The result. -/
  result : ρ
  /-- The reports of observers. -/
  calls : List (Call σ) := []
  /-- Notes on what happened. -/
  notes : List Note := []

namespace Outcome

/-- An outcome that came after other reports and notes. -/
def after (earlier : Outcome σ τ α) (later : Outcome σ τ ρ) : Outcome σ τ ρ :=
  { later with calls := earlier.calls ++ later.calls, notes := earlier.notes ++ later.notes }

/-- The outcome with another result. -/
def withResult (outcome : Outcome σ τ α) (result : ρ) : Outcome σ τ ρ :=
  ⟨outcome.forest, result, outcome.calls, outcome.notes⟩

end Outcome

namespace Forest

/-- A parse that has not begun. -/
def new (grammar : Grammar σ τ) (limits : Limits) : Forest σ τ :=
  { grammar, limits, branches := [.start grammar.start], consumed := 0, fault := none }

/-- Begins anew with the same grammar and limits. -/
def restart (f : Forest σ τ) : Forest σ τ := new f.grammar f.limits

/-- Whether no branch is left, so that nothing that follows can be accepted. -/
def isHopeless (f : Forest σ τ) : Bool := f.branches.isEmpty

/-- The number of live branches. -/
def size (f : Forest σ τ) : Nat := f.branches.length

/-! ## Taking symbols -/

/-- Stops the parse for good. -/
def stop (f : Forest σ τ) (reason : Fault) (calls : List (Call σ)) (notes : List Note) :
    Outcome σ τ (Except Fault Unit) where
  forest := { f with branches := [], fault := some reason }
  result := .error reason
  calls
  notes := notes ++ [.stopped f.consumed reason]

variable [DecidableEq σ]

/-- What unfolding all branches before the next symbol, or at the end, comes to. -/
def unfold (f : Forest σ τ) (next : Option σ) : Unfolded σ τ :=
  .ofEvents (Cursor.unfold ⟨f.grammar, f.consumed, next⟩ f.limits.depth f.branches)

/-- Takes a symbol: every branch unfolds, those at rest that the symbol fits go on,
and the others are dropped.  A forest that a limit stopped refuses every symbol. -/
def take (f : Forest σ τ) (symbol : σ) : Outcome σ τ (Except Fault Unit) :=
  match f.fault with
  | some reason => { forest := f, result := .error reason }
  | none =>
    if f.limits.symbols ≤ f.consumed then
      f.stop (.tooManySymbols (f.consumed + 1) f.limits.symbols) [] []
    else
      let unfolded := f.unfold (some symbol)
      match unfolded.overrun with
      | some depth => f.stop (.tooDeep depth f.limits.depth) unfolded.calls []
      | none =>
        let branches := Branch.distinct (unfolded.rested.filterMap (f.grammar.consume symbol))
        let calls := unfolded.calls ++ unfolded.rested.flatMap (f.grammar.callsOn symbol)
        let next := { f with branches, consumed := f.consumed + 1 }
        let note := .took next.consumed f.size next.size
        if Limits.isExceeded f.limits.branches next.size then
          next.stop (.tooManyBranches next.size f.limits.branches) calls [note]
        else { forest := next, result := .ok (), calls, notes := [note] }

/-- Takes symbols up to and including the first that is refused. -/
def takeAll (f : Forest σ τ) : List σ → Outcome σ τ (Except Fault Unit)
  | [] => { forest := f, result := .ok () }
  | symbol :: symbols =>
    let taken := f.take symbol
    match taken.result with
    | .error _ => taken
    | .ok () => taken.after (taken.forest.takeAll symbols)

/-- Offers every symbol, refused or not, and gives for each the number of
branches that are live after it. -/
def takeEach (f : Forest σ τ) : List σ → Outcome σ τ (List (Except Fault Nat))
  | [] => { forest := f, result := [] }
  | symbol :: symbols =>
    let taken := f.take symbol
    let rest := taken.after (taken.forest.takeEach symbols)
    { rest with result := taken.result.map (fun () => taken.forest.size) :: rest.result }

/-! ## Closing -/

/-- Closes the parse.  All branches are gone afterwards, and so is the mark of a
limit that had stopped it. -/
def close (f : Forest σ τ) : Outcome σ τ (Except Refusal (List τ)) :=
  let closed := { f with branches := [], fault := none }
  match f.fault with
  | some reason => { forest := closed, result := .error (.aborted reason) }
  | none =>
    let unfolded := f.unfold none
    match unfolded.overrun with
    | some depth =>
      let reason := .tooDeep depth f.limits.depth
      { forest := closed, result := .error (.aborted reason), calls := unfolded.calls,
        notes := [.stoppedAtEnd reason] }
    | none =>
      match Branch.distinct (unfolded.rested.filter Branch.isDone) with
      | [] =>
        { forest := closed, result := .error (.mismatch f.consumed), calls := unfolded.calls,
          notes := [.unmatched f.consumed] }
      | [b] =>
        { forest := closed, result := .ok b.tokens, calls := unfolded.calls,
          notes := [.accepted f.consumed b.tokens.length] }
      | several =>
        { forest := closed, result := .error (.ambiguous several.length f.consumed),
          calls := unfolded.calls, notes := [.undecided several.length f.consumed] }

/-- What is left in two places for output after a parse was closed. -/
structure Verdict (τ : Type) where
  /-- Whether the input was accepted. -/
  accepted : Bool
  /-- The place for tokens, if there is one. -/
  tokens : Option (List τ)
  /-- The place for a message, if there is one. -/
  message : Option String

/-- Closes the parse and writes into the places that are given.  Acceptance
replaces the tokens and empties the message; refusal writes the message only. -/
def conclude (f : Forest σ τ) (tokens : Option (List τ)) (message : Option String) :
    Outcome σ τ (Verdict τ) :=
  let closed := f.close
  closed.withResult <|
    match closed.result with
    | .ok emitted => ⟨true, tokens.map fun _ => emitted, message.map fun _ => ""⟩
    | .error refusal => ⟨false, tokens, message.map fun _ => refusal.message⟩

end Forest

end Ramify
