import Ramify.Limits
import Ramify.Fault

/-!
# Limits, faults and refusals as data

The form in which limits, faults and refusals are stored and sent: trees of
labelled fields.  A fault or refusal is a record of one field, labelled with
its kind, that holds the record of its particulars.  Reading gives back what
was written, if its counts have 64 bits, and passes over fields that it does not
know.
-/

namespace Ramify

/-- Data made of numbers, texts, lists and labelled fields. -/
inductive Tree where
  /-- Nothing. -/
  | null
  /-- A truth value. -/
  | bool (value : Bool)
  /-- A number that is written as an integer. -/
  | whole (value : Int)
  /-- A number `mantissa * 10 ^ exponent` that is written as a fraction or with an
  exponent, even if its value is an integer. -/
  | decimal (mantissa exponent : Int)
  /-- A text. -/
  | text (value : String)
  /-- A list. -/
  | list (items : List Tree)
  /-- Labelled fields. -/
  | record (fields : List (String × Tree))
  deriving Inhabited

namespace Tree

/-- The tree of a count. -/
def ofCount (n : Nat) : Tree := .whole n

/-- The 64-bit count that a tree is.  A count is always written as an integer. -/
def count? : Tree → Option Nat
  | .whole (.ofNat n) => if n ≤ maxCount then some n else none
  | _ => none

/-- The text that a tree is. -/
def text? : Tree → Option String
  | .text value => some value
  | _ => none

/-- The field of a label. -/
def field? (label : String) : Tree → Option Tree
  | .record fields => fields.lookup label
  | _ => none

/-- The count in the field of a label. -/
def countAt? (tree : Tree) (label : String) : Option Nat :=
  tree.field? label >>= count?

/-- The text in the field of a label. -/
def textAt? (tree : Tree) (label : String) : Option String :=
  tree.field? label >>= text?

/-- The kind and the particulars of a record with one field that holds a record. -/
def tagged? : Tree → Option (String × Tree)
  | .record [(kind, .record fields)] => some (kind, .record fields)
  | _ => none

end Tree

namespace Limits

/-- Writes limits. -/
def toTree (limits : Limits) : Tree :=
  .record
    [("max_recursion_depth", .ofCount limits.depth), ("max_branches", .ofCount limits.branches),
     ("max_symbols", .ofCount limits.symbols)]

/-- Reads limits, from labelled fields or from a list of the three in order. -/
def ofTree? : Tree → Option Limits
  | .list [depth, branches, symbols] =>
    return ⟨← depth.count?, ← branches.count?, ← symbols.count?⟩
  | tree =>
    return ⟨← tree.countAt? "max_recursion_depth", ← tree.countAt? "max_branches",
      ← tree.countAt? "max_symbols"⟩

end Limits

namespace Fault

/-- Writes a fault. -/
def toTree (fault : Fault) : Tree :=
  .record [(fault.kind, .record <|
    match fault with
    | .undefinedRule name | .redefinedRule name | .leftRecursion name => [("name", .text name)]
    | .tooDeep depth limit => [("depth", .ofCount depth), ("limit", .ofCount limit)]
    | .tooManyBranches count limit => [("count", .ofCount count), ("limit", .ofCount limit)]
    | .tooManySymbols consumed limit =>
      [("consumed", .ofCount consumed), ("limit", .ofCount limit)])]

/-- Reads a fault. -/
def ofTree? (tree : Tree) : Option Fault := do
  let (kind, fields) ← tree.tagged?
  match kind with
  | "UndefinedRule" => return .undefinedRule (← fields.textAt? "name")
  | "RuleRedefined" => return .redefinedRule (← fields.textAt? "name")
  | "LeftRecursion" => return .leftRecursion (← fields.textAt? "name")
  | "RecursionLimitExceeded" =>
    return .tooDeep (← fields.countAt? "depth") (← fields.countAt? "limit")
  | "BranchLimitExceeded" =>
    return .tooManyBranches (← fields.countAt? "count") (← fields.countAt? "limit")
  | "SymbolLimitExceeded" =>
    return .tooManySymbols (← fields.countAt? "consumed") (← fields.countAt? "limit")
  | _ => none

end Fault

namespace Refusal

/-- Writes a refusal. -/
def toTree (refusal : Refusal) : Tree :=
  .record [(refusal.kind, .record <|
    match refusal with
    | .mismatch consumed => [("consumed", .ofCount consumed)]
    | .ambiguous derivations consumed =>
      [("derivations", .ofCount derivations), ("consumed", .ofCount consumed)]
    | .aborted reason => [("reason", reason.toTree)])]

/-- Reads a refusal. -/
def ofTree? (tree : Tree) : Option Refusal := do
  let (kind, fields) ← tree.tagged?
  match kind with
  | "Syntax" => return .mismatch (← fields.countAt? "consumed")
  | "Ambiguous" =>
    return .ambiguous (← fields.countAt? "derivations") (← fields.countAt? "consumed")
  | "Aborted" => return .aborted (← Fault.ofTree? (← fields.field? "reason"))
  | _ => none

end Refusal

end Ramify
