import Ramify.Parse.Forest

/-!
# Symbols that arrive over time

Two ways to feed a forest from a source that does not have all its symbols at
once.  A *channel* holds the symbols sent until it was closed; receiving from it
waits, so only the symbols matter.  A *stream* is asked again and again, and may
answer that it is not ready; it is given by its answers.
-/

namespace Ramify

variable {σ τ : Type}

/-! ## Channels -/

/-- What receiving from a channel hands back. -/
structure Received (σ τ : Type) where
  /-- The forest afterwards, the number of symbols received or the limit that
  was exceeded, reports and notes. -/
  outcome : Outcome σ τ (Except Fault Nat)
  /-- The symbols still in the channel. -/
  left : List σ

namespace Forest

variable [DecidableEq σ]

/-- Takes symbols from a closed channel, `count` having been taken before, until
it is empty or one is refused. -/
def receiveFrom (f : Forest σ τ) (count : Nat) : List σ → Received σ τ
  | [] => ⟨{ forest := f, result := .ok count, notes := [.closed count] }, []⟩
  | symbol :: symbols =>
    let taken := f.take symbol
    match taken.result with
    | .error reason => ⟨taken.withResult (.error reason), symbols⟩
    | .ok () =>
      let rest := taken.forest.receiveFrom (count + 1) symbols
      { rest with outcome := taken.after rest.outcome }

/-- Takes every symbol of a closed channel up to and including the first that is
refused. -/
def receive (f : Forest σ τ) (channel : List σ) : Received σ τ :=
  f.receiveFrom 0 channel

end Forest

/-! ## Streams -/

/-- The answers that a stream is going to give: a symbol, or none if it is not
ready.  When they are used up the stream has ended. -/
abbrev Stream.Answers (σ : Type) := List (Option σ)

/-- A forest that is being fed from a stream.  The forest is given away when the
feeding is over. -/
structure Feeder (σ τ : Type) where
  /-- The answers still to come. -/
  answers : Stream.Answers σ
  /-- The forest, until it is given away. -/
  forest : Option (Forest σ τ)

/-- What asking a feeder hands back. -/
structure Polled (σ τ : Type) where
  /-- The feeder afterwards. -/
  feeder : Feeder σ τ
  /-- The forest, if the feeding is over and it was still there to give. -/
  ready : Option (Forest σ τ)
  /-- The reports of observers. -/
  calls : List (Call σ) := []
  /-- Notes on what happened. -/
  notes : List Note := []

namespace Feeder

variable [DecidableEq σ]

/-- Feeds what the stream answers at once.  The feeding is over when the stream
ends or a symbol is refused; a feeder that has given its forest away takes one
symbol more and stays silent. -/
def pollWith (forest : Option (Forest σ τ)) : Stream.Answers σ → Polled σ τ
  | [] => { feeder := ⟨[], none⟩, ready := forest }
  | none :: answers => { feeder := ⟨answers, forest⟩, ready := none }
  | some symbol :: answers =>
    match forest with
    | none => { feeder := ⟨answers, none⟩, ready := none }
    | some f =>
      let taken := f.take symbol
      match taken.result with
      | .error _ =>
        { feeder := ⟨answers, none⟩, ready := some taken.forest, calls := taken.calls,
          notes := taken.notes }
      | .ok () =>
        let rest := pollWith (some taken.forest) answers
        { rest with calls := taken.calls ++ rest.calls, notes := taken.notes ++ rest.notes }

/-- Asks a feeder once. -/
def poll (feeder : Feeder σ τ) : Polled σ τ :=
  pollWith feeder.forest feeder.answers

/-- Asks a feeder until it is ready, and at most `fuel` times. -/
def pollUntil : (fuel : Nat) → Feeder σ τ → Polled σ τ
  | 0, feeder => { feeder, ready := none }
  | fuel + 1, feeder =>
    let first := feeder.poll
    if first.ready.isSome then first
    else
      let rest := pollUntil fuel first.feeder
      { rest with calls := first.calls ++ rest.calls, notes := first.notes ++ rest.notes }

/-- Asks a feeder until it is ready.  Each answer "not ready" is used up by being
heard, so there is one question more than answers at most. -/
def run (feeder : Feeder σ τ) : Polled σ τ :=
  pollUntil (feeder.answers.length + 1) feeder

/-- The number of symbols that the stream still holds. -/
def symbolsLeft (feeder : Feeder σ τ) : Nat :=
  (feeder.answers.filterMap id).length

end Feeder

/-- The answers of a stream that is not ready at every first question, and then
gives the next symbol or ends. -/
def Stream.alternating (symbols : List σ) : Stream.Answers σ :=
  symbols.flatMap (fun symbol => [none, some symbol]) ++ [none]

end Ramify
