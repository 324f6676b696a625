import Ramify.Parse.Source
import Ramify.Proofs.Taking

/-!
# Symbols that arrive over time

A forest that is fed from a channel or from a stream is the forest that takes the symbols one
after the other, up to and including the first that is refused (`Forest.Fed`).  How often a
stream is not ready, and where, makes no difference: a question that is answered so changes
nothing but the answers to come, and the next one goes on from there.

A feeder that was ready has given its forest away, so it is never ready again, whatever is
answered to it.
-/

namespace Ramify

variable {σ τ : Type} [DecidableEq σ]

namespace Forest

variable {f : Forest σ τ}

/-! ## Up to the first that is refused -/

/-- Symbols are fed one after the other, with a result, and lead to a forest.  All of them are
taken; or one is refused, and those after it are left. -/
inductive Fed (f : Forest σ τ) (symbols : List σ) :
    Except Fault Unit → Forest σ τ → List σ → Prop where
  /-- Every symbol is taken. -/
  | all (h : (f.takeAll symbols).result = .ok ()) :
      Fed f symbols (.ok ()) (f.takeAll symbols).forest []
  /-- The symbols before one are taken, and that one is refused. -/
  | refused {before after : List σ} {symbol : σ} {reason : Fault}
      (hs : symbols = before ++ symbol :: after) (hbefore : (f.takeAll before).result = .ok ())
      (hlast : ((f.takeAll before).forest.take symbol).result = .error reason) :
      Fed f symbols (.error reason) ((f.takeAll before).forest.take symbol).forest after

theorem Fed.cons {symbol : σ} {symbols left : List σ} {result : Except Fault Unit}
    {forest : Forest σ τ} (hfirst : (f.take symbol).result = .ok ())
    (h : (f.take symbol).forest.Fed symbols result forest left) :
    f.Fed (symbol :: symbols) result forest left := by
  cases h with
  | all h =>
      rw [← (takeAll_cons hfirst).1] at h
      rw [← (takeAll_cons hfirst).2]
      exact .all h
  | @refused before after last reason hs hbefore hlast =>
      rw [← (takeAll_cons hfirst).1] at hbefore
      rw [← (takeAll_cons hfirst).2] at hlast ⊢
      exact .refused (congrArg (List.cons symbol) hs) hbefore hlast

theorem Fed.of_error {symbol : σ} {reason : Fault} (symbols : List σ)
    (h : (f.take symbol).result = .error reason) :
    f.Fed (symbol :: symbols) (.error reason) (f.take symbol).forest symbols := by
  have hs : symbol :: symbols = [] ++ symbol :: symbols := rfl
  exact .refused hs rfl h

/-! ## Channels -/

theorem receiveFrom_eq (f : Forest σ τ) (count : Nat) (channel : List σ) :
    (f.receiveFrom count channel).outcome.result =
        (f.takeAll channel).result.map (fun _ => count + channel.length) ∧
      (f.receiveFrom count channel).outcome.forest = (f.takeAll channel).forest := by
  induction channel generalizing f count with
  | nil => exact ⟨rfl, rfl⟩
  | cons symbol channel ih =>
      cases hresult : (f.take symbol).result with
      | error reason =>
          simp only [Forest.receiveFrom, Forest.takeAll, hresult]
          exact ⟨rfl, rfl⟩
      | ok _ =>
          obtain ⟨hcount, hforest⟩ := ih (f.take symbol).forest (count + 1)
          simp only [Forest.receiveFrom, Forest.takeAll, hresult, List.length_cons]
          rw [Nat.add_assoc, Nat.add_comm 1] at hcount
          exact ⟨hcount, hforest⟩

theorem receive_eq (f : Forest σ τ) (channel : List σ) :
    (f.receive channel).outcome.result =
        (f.takeAll channel).result.map (fun _ => channel.length) ∧
      (f.receive channel).outcome.forest = (f.takeAll channel).forest := by
  have h := f.receiveFrom_eq 0 channel
  rwa [Nat.zero_add] at h

/-- What is left in a channel is what stands after the symbol that is refused. -/
theorem receiveFrom_fed (f : Forest σ τ) (count : Nat) (channel : List σ) :
    f.Fed channel (f.takeAll channel).result (f.takeAll channel).forest
      (f.receiveFrom count channel).left := by
  induction channel generalizing f count with
  | nil => exact .all rfl
  | cons symbol channel ih =>
      cases hresult : (f.take symbol).result with
      | error reason =>
          rw [takeAll_cons_of_error channel hresult, Forest.receiveFrom, hresult]
          exact .of_error channel hresult
      | ok _ =>
          rw [(takeAll_cons hresult).1, (takeAll_cons hresult).2, Forest.receiveFrom, hresult]
          exact .cons hresult (ih _ (count + 1))

end Forest

/-! ## Streams -/

namespace Feeder

variable {f : Forest σ τ} {fuel : Nat} {answers : Stream.Answers σ}

/-- A feeder without a forest is never ready, whatever is answered to it. -/
theorem pollUntil_of_none (fuel : Nat) (answers : Stream.Answers σ) :
    (pollUntil fuel (⟨answers, none⟩ : Feeder σ τ)).ready = none := by
  induction fuel generalizing answers with
  | zero => rfl
  | succ fuel ih =>
      rcases answers with _ | ⟨_ | symbol, answers⟩
      · exact ih []
      · exact ih answers
      · exact ih answers

/-- At its end a stream makes the feeder ready. -/
theorem pollUntil_nil (fuel : Nat) (f : Forest σ τ) :
    pollUntil (fuel + 1) ⟨[], some f⟩ = { feeder := ⟨[], none⟩, ready := some f } :=
  rfl

/-- A stream that is not ready uses up one question, and nothing else. -/
theorem pollUntil_wait (fuel : Nat) (f : Forest σ τ) (answers : Stream.Answers σ) :
    pollUntil (fuel + 1) ⟨none :: answers, some f⟩ = pollUntil fuel ⟨answers, some f⟩ :=
  rfl

/-- A symbol that is refused makes the feeder ready. -/
theorem pollUntil_of_error {symbol : σ} {reason : Fault}
    (h : (f.take symbol).result = .error reason) (fuel : Nat) (answers : Stream.Answers σ) :
    pollUntil (fuel + 1) ⟨some symbol :: answers, some f⟩ =
      { feeder := ⟨answers, none⟩, ready := some (f.take symbol).forest,
        calls := (f.take symbol).calls, notes := (f.take symbol).notes } := by
  simp [pollUntil, poll, pollWith, h]

/-- A symbol that is taken leads to the same feeder with the next forest, in the same
question. -/
theorem pollUntil_of_ok {symbol : σ} (h : (f.take symbol).result = .ok ()) (fuel : Nat)
    (answers : Stream.Answers σ) :
    let rest := pollUntil (fuel + 1) ⟨answers, some (f.take symbol).forest⟩
    pollUntil (fuel + 1) ⟨some symbol :: answers, some f⟩ =
      { rest with
        calls := (f.take symbol).calls ++ rest.calls
        notes := (f.take symbol).notes ++ rest.notes } := by
  by_cases hready : (pollWith (some (f.take symbol).forest) answers).ready.isSome = true
  · simp [pollUntil, poll, pollWith, h, hready]
  · simp [pollUntil, poll, pollWith, h, hready]

/-- A feeder has become ready: it gave away the forest that takes what the stream had answered,
and took from the stream what led to that forest. -/
structure Delivers (f : Forest σ τ) (answers : Stream.Answers σ) (polled : Polled σ τ) : Prop where
  /-- The forest is that of the symbols, fed one after the other. -/
  ready : polled.ready = some (f.takeAll (answers.filterMap id)).forest
  /-- The forest was given away. -/
  spent : polled.feeder.forest = none
  /-- The answers that are left are the last ones. -/
  left : polled.feeder.answers <:+ answers
  /-- The symbols that were taken from the stream are those that were fed. -/
  fed : f.Fed (answers.filterMap id) (f.takeAll (answers.filterMap id)).result
    (f.takeAll (answers.filterMap id)).forest (polled.feeder.answers.filterMap id)
  /-- Observers report what they report when the symbols are fed. -/
  calls : polled.calls = (f.takeAll (answers.filterMap id)).calls
  /-- The notes are those of feeding the symbols. -/
  notes : polled.notes = (f.takeAll (answers.filterMap id)).notes

/-- A feeder that is asked once more often than the stream has answers becomes ready. -/
theorem delivers_pollUntil (h : answers.length < fuel) :
    Delivers f answers (pollUntil fuel ⟨answers, some f⟩) := by
  obtain ⟨fuel, rfl⟩ : ∃ more, fuel = more + 1 := ⟨fuel - 1, by omega⟩
  induction answers generalizing f fuel with
  | nil =>
      rw [pollUntil_nil]
      exact ⟨rfl, rfl, List.suffix_rfl, .all rfl, rfl, rfl⟩
  | cons answer answers ih =>
      rw [List.length_cons] at h
      cases answer with
      | none =>
          obtain ⟨fuel, rfl⟩ : ∃ more, fuel = more + 1 := ⟨fuel - 1, by omega⟩
          obtain ⟨hready, hspent, hleft, hfed, hcalls, hnotes⟩ := ih (f := f) fuel (by omega)
          rw [pollUntil_wait]
          exact ⟨hready, hspent, hleft.trans (List.suffix_cons _ _), hfed, hcalls, hnotes⟩
      | some symbol =>
          have hsymbols : (some symbol :: answers).filterMap id =
              symbol :: answers.filterMap id := rfl
          cases hresult : (f.take symbol).result with
          | error reason =>
              rw [pollUntil_of_error hresult]
              have hall := Forest.takeAll_cons_of_error (answers.filterMap id) hresult
              refine ⟨?_, rfl, List.suffix_cons _ _, ?_, ?_, ?_⟩
              all_goals rw [hsymbols, hall]
              rw [hresult]
              exact .of_error _ hresult
          | ok _ =>
              obtain ⟨hready, hspent, hleft, hfed, hcalls, hnotes⟩ :=
                ih (f := (f.take symbol).forest) fuel (by omega)
              have hall : (f.takeAll (symbol :: answers.filterMap id)).result = _ ∧
                  (f.takeAll (symbol :: answers.filterMap id)).forest = _ :=
                Forest.takeAll_cons hresult
              obtain ⟨hallresult, hallforest⟩ := hall
              rw [pollUntil_of_ok hresult]
              refine ⟨?_, hspent, hleft.trans (List.suffix_cons _ _), ?_, ?_, ?_⟩
              · rw [hsymbols, hallforest]
                exact hready
              · rw [hsymbols, hallresult, hallforest]
                exact .cons hresult hfed
              · simp only [hsymbols, Forest.takeAll, hresult, Outcome.after, hcalls]
              · simp only [hsymbols, Forest.takeAll, hresult, Outcome.after, hnotes]

end Feeder

/-! ## Arrival makes no difference -/

/-- How symbols arrive makes no difference.  Let a stream answer symbols, and that it is not
ready any number of times between them and before its end.  A feeder that is asked until it is
ready gives the forest that takes the symbols one after the other, up to and including the first
that is refused.  It takes just these from the stream, and is never ready again, whatever is
answered to it then.

A channel leads to that forest as well.  Its result is the number of symbols, or why one was
refused, and then the symbols after that one are left in the channel. -/
theorem Forest.arrival_immaterial (f : Forest σ τ) :
    (∀ answers : Stream.Answers σ,
      let symbols := answers.filterMap id
      let polled := Feeder.run ⟨answers, some f⟩
      polled.ready = some (f.takeAll symbols).forest ∧
        polled.calls = (f.takeAll symbols).calls ∧
        polled.feeder.answers <:+ answers ∧
        f.Fed symbols (f.takeAll symbols).result (f.takeAll symbols).forest
          (polled.feeder.answers.filterMap id) ∧
        ∀ fuel later, (Feeder.pollUntil fuel ⟨later, polled.feeder.forest⟩).ready = none) ∧
    ∀ channel : List σ,
      let received := f.receive channel
      received.outcome.forest = (f.takeAll channel).forest ∧
        received.outcome.result = (f.takeAll channel).result.map (fun _ => channel.length) ∧
        f.Fed channel (f.takeAll channel).result (f.takeAll channel).forest received.left := by
  refine ⟨fun answers => ?_, fun channel => ?_⟩
  · intro symbols polled
    obtain ⟨hready, hspent, hleft, hfed, hcalls, -⟩ : Feeder.Delivers f answers polled :=
      Feeder.delivers_pollUntil (Nat.lt_succ_self answers.length)
    refine ⟨hready, hcalls, hleft, hfed, fun fuel later => ?_⟩
    rw [hspent]
    exact Feeder.pollUntil_of_none fuel later
  · obtain ⟨hresult, hforest⟩ := f.receive_eq channel
    exact ⟨hforest, hresult, f.receiveFrom_fed 0 channel⟩

end Ramify
