import Ramify.Fault

/-!
# Notes on the progress of a parse

Building a grammar and running a parse leave notes: values that say what
happened.  `Note.line` gives the line that a log shows for one.
-/

namespace Ramify

/-- Something worth telling about a parse. -/
inductive Note where
  /-- A grammar was built. -/
  | built (nodes rules : Nat)
  /-- A symbol was taken: its number, and the live branches before and after it. -/
  | took (consumed before after : Nat)
  /-- A limit was exceeded while feeding. -/
  | stopped (consumed : Nat) (reason : Fault)
  /-- A limit was exceeded while closing the parse. -/
  | stoppedAtEnd (reason : Fault)
  /-- The parse ended without a derivation. -/
  | unmatched (consumed : Nat)
  /-- The parse ended with one derivation. -/
  | accepted (consumed tokens : Nat)
  /-- The parse ended with several derivations. -/
  | undecided (derivations consumed : Nat)
  /-- The channel that gave the symbols was closed. -/
  | closed (received : Nat)
  /-- A table was read. -/
  | readTable (records characters : Nat)
  /-- A program was compiled. -/
  | compiled (words instructions : Nat)
  deriving DecidableEq

namespace Note

/-- The line of a note in a log. -/
def line : Note → String
  | .built nodes rules => s!"DEBUG built grammar: {nodes} nodes, {rules} rules"
  | .took consumed before after =>
    s!"TRACE symbol {consumed}: {before} -> {after} live branches"
  | .stopped consumed reason =>
    s!"DEBUG forest aborted after {consumed} symbols: {reason.message}"
  | .stoppedAtEnd reason => s!"DEBUG rejected: {reason.message} at end of input"
  | .unmatched consumed => s!"DEBUG rejected: no complete derivation after {consumed} symbols"
  | .accepted consumed tokens => s!"DEBUG accepted {consumed} symbols with {tokens} tokens"
  | .undecided derivations consumed =>
    s!"DEBUG rejected: {derivations} derivations after {consumed} symbols"
  | .closed received => s!"DEBUG symbol channel closed after {received} symbols"
  | .readTable records characters =>
    s!"DEBUG read {records} records from {characters} characters"
  | .compiled words instructions =>
    s!"DEBUG compiled {words} words into {instructions} instructions"

end Note

end Ramify
