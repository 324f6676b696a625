import Ramify.Text.Inspect

/-!
# What can go wrong

A `Fault` is either a mistake in a grammar, found when the grammar is built, or
a limit that a parse ran into.  A `Refusal` says why a finished parse gives
no tokens.  Each has one wording, given by `message`.
-/

namespace Ramify

/-- A mistake in a grammar, or a limit that was exceeded. -/
inductive Fault where
  /-- A rule is used but has no body. -/
  | undefinedRule (name : String)
  /-- A rule that has a body is given another. -/
  | redefinedRule (name : String)
  /-- A rule can reach itself without consuming a symbol. -/
  | leftRecursion (name : String)
  /-- A branch holds more frames than allowed. -/
  | tooDeep (depth limit : Nat)
  /-- More branches are live than allowed. -/
  | tooManyBranches (count limit : Nat)
  /-- More symbols were given than allowed. -/
  | tooManySymbols (consumed limit : Nat)
  deriving DecidableEq

namespace Fault

/-- The wording of a fault. -/
def message : Fault → String
  | .undefinedRule name => s!"rule `{name}` was declared but never defined"
  | .redefinedRule name => s!"rule `{name}` is already defined"
  | .leftRecursion name =>
    s!"rule `{name}` is left-recursive: it can reach itself without consuming input"
  | .tooDeep depth limit => s!"recursion limit exceeded: depth {depth} > limit {limit}"
  | .tooManyBranches count limit =>
    s!"branch limit exceeded: {count} live branches > limit {limit}"
  | .tooManySymbols consumed limit =>
    s!"symbol limit exceeded: consumed {consumed} > limit {limit}"

/-- The name of a kind of fault, as it is written in diagnostics and in data. -/
def kind : Fault → String
  | .undefinedRule _ => "UndefinedRule"
  | .redefinedRule _ => "RuleRedefined"
  | .leftRecursion _ => "LeftRecursion"
  | .tooDeep _ _ => "RecursionLimitExceeded"
  | .tooManyBranches _ _ => "BranchLimitExceeded"
  | .tooManySymbols _ _ => "SymbolLimitExceeded"

instance : Inspect Fault where
  inspect fault := Text.record fault.kind <|
    match fault with
    | .undefinedRule name | .redefinedRule name | .leftRecursion name => [("name", inspect name)]
    | .tooDeep depth limit => [("depth", inspect depth), ("limit", inspect limit)]
    | .tooManyBranches count limit => [("count", inspect count), ("limit", inspect limit)]
    | .tooManySymbols consumed limit => [("consumed", inspect consumed), ("limit", inspect limit)]

end Fault

/-- Why a finished parse gives no tokens. -/
inductive Refusal where
  /-- No derivation matches the whole input. -/
  | mismatch (consumed : Nat)
  /-- More than one derivation matches the whole input. -/
  | ambiguous (derivations consumed : Nat)
  /-- The parse ran into a limit. -/
  | aborted (reason : Fault)
  deriving DecidableEq

namespace Refusal

/-- The wording of a refusal. -/
def message : Refusal → String
  | .mismatch consumed =>
    s!"syntax error: input does not match the grammar after {consumed} symbols"
  | .ambiguous derivations consumed =>
    s!"ambiguous input: {derivations} distinct derivations match all {consumed} symbols"
  | .aborted reason => s!"parse aborted: {reason.message}"

/-- The name of a kind of refusal, as it is written in diagnostics and in data. -/
def kind : Refusal → String
  | .mismatch _ => "Syntax"
  | .ambiguous _ _ => "Ambiguous"
  | .aborted _ => "Aborted"

instance : Inspect Refusal where
  inspect refusal := Text.record refusal.kind <|
    match refusal with
    | .mismatch consumed => [("consumed", inspect consumed)]
    | .ambiguous derivations consumed =>
      [("derivations", inspect derivations), ("consumed", inspect consumed)]
    | .aborted reason => [("reason", inspect reason)]

end Refusal

end Ramify
