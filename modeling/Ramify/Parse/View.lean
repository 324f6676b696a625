import Ramify.Parse.Forest
import Ramify.Datum

/-!
# Looking at a forest

The branches of a forest have no order that means anything, so every view of
them is sorted.  Tokens are compared by the data that stand for them.
-/

namespace Ramify

variable {σ τ : Type}

/-- Token types whose tokens are shown as data. -/
class ToDatum (τ : Type) where
  /-- The datum that stands for a token. -/
  datum : τ → Datum

export ToDatum (datum)

instance : ToDatum Datum := ⟨id⟩

/-- What can be seen of a branch from outside. -/
structure BranchView where
  /-- The number of its open constructs. -/
  depth : Nat
  /-- Whether nothing is left to match. -/
  isDone : Bool
  /-- The tokens emitted so far. -/
  tokens : List Datum

/-- By depth, then incomplete before complete, then by tokens. -/
def BranchView.order (a b : BranchView) : Ordering :=
  ((compare a.depth b.depth).then (compare a.isDone b.isDone)).then
    (Datum.orderAll a.tokens b.tokens)

namespace Forest

/-- The branches as seen from outside, sorted. -/
def views [ToDatum τ] (f : Forest σ τ) : List BranchView :=
  (f.branches.map fun b => ⟨b.depth, b.isDone, b.tokens.map datum⟩).mergeSort
    fun a b => (a.order b).isLE

/-- The diagnostic texts of the branches, sorted. -/
def texts [Inspect σ] [Inspect τ] (f : Forest σ τ) : List String :=
  (f.branches.map inspect).mergeSort fun a b => (compare a b).isLE

end Forest

/-- The labels of reports with the texts of the symbols they saw, sorted by
label and then by text. -/
def Call.sorted (text : σ → String) (calls : List (Call σ)) : List (String × String) :=
  (calls.map fun call => (call.label, text call.symbol)).mergeSort fun a b =>
    ((compare a.1 b.1).then (compare a.2 b.2)).isLE

end Ramify
