import Ramify.Text.Inspect

/-!
# Grammar expressions

An `Expr σ τ` describes texts over symbols of type `σ` and the tokens of type
`τ` that a match yields.  Expressions are trees; a recursive grammar is written
with named rules, which an expression mentions by index.

Two operators build longer expressions and keep them flat: `a ++ b` is `a`
followed by `b`, `a <|> b` is a choice between the two, and an operand that
already is a sequence (a choice) is extended rather than nested.
-/

namespace Ramify

variable {σ τ : Type}

/-! ## Symbol sets and observers -/

/-- A set of symbols, given by its members or by what it leaves out. -/
structure SymbolSet (σ : Type) where
  /-- Whether the set is the complement of what is listed. -/
  negated : Bool
  /-- The listed symbols. -/
  listed : List σ

namespace SymbolSet

/-- The set of the listed symbols. -/
def of (symbols : List σ) : SymbolSet σ := ⟨false, symbols⟩

/-- The set of all symbols but the listed ones. -/
def except (symbols : List σ) : SymbolSet σ := ⟨true, symbols⟩

variable [DecidableEq σ]

/-- Whether a symbol is in the set. -/
def contains (set : SymbolSet σ) (symbol : σ) : Bool :=
  decide (symbol ∈ set.listed) != set.negated

/-- Whether a set that guards a position lets the next symbol through.  At the
end of the input only a complement does. -/
def admits (set : SymbolSet σ) : Option σ → Bool
  | some symbol => set.contains symbol
  | none => set.negated

end SymbolSet

/-- An observer inside a grammar.  Reaching it reports the symbol at hand under
its label. -/
structure Observer where
  /-- Whether it matches without a symbol. -/
  passes : Bool
  /-- Whether it matches one symbol, whichever it is. -/
  consumes : Bool
  /-- The name under which it reports. -/
  label : String

/-- What a match of an emitting expression adds to the tokens. -/
inductive Yield (σ τ : Type) where
  /-- A fixed token. -/
  | fixed (token : τ)
  /-- A token made of the matched symbols. -/
  | ofSymbols (make : List σ → τ)

/-! ## Expressions -/

/-- A grammar expression over symbols `σ` with tokens `τ`. -/
inductive Expr (σ τ : Type) where
  /-- The empty text. -/
  | empty
  /-- One symbol of a set. -/
  | oneOf (set : SymbolSet σ)
  /-- A run of symbols. -/
  | literal (run : List σ)
  /-- The empty text where the next symbol is in a set. -/
  | guard (set : SymbolSet σ)
  /-- Expressions one after the other. -/
  | seq (parts : List (Expr σ τ))
  /-- Any one of several expressions. -/
  | alt (choices : List (Expr σ τ))
  /-- An expression any number of times. -/
  | star (body : Expr σ τ)
  /-- An expression a fixed number of times. -/
  | times (body : Expr σ τ) (count : Nat)
  /-- The body of a rule. -/
  | rule (index : Nat)
  /-- An expression whose match adds one token after its own. -/
  | emit (body : Expr σ τ) (yields : Yield σ τ)
  /-- An expression whose tokens are merged into one. -/
  | fold (body : Expr σ τ) (merge : List τ → τ)
  /-- An observer. -/
  | observe (observer : Observer)

namespace Expr

/-- Any one symbol. -/
def any : Expr σ τ := .oneOf (.except [])

/-- `a` followed by `b`; operands that are sequences are spliced in. -/
def followedBy : Expr σ τ → Expr σ τ → Expr σ τ
  | .seq as, .seq bs => .seq (as ++ bs)
  | .seq as, b => .seq (as ++ [b])
  | a, .seq bs => .seq (a :: bs)
  | a, b => .seq [a, b]

/-- A choice between `a` and `b`; operands that are choices are spliced in. -/
def either : Expr σ τ → Expr σ τ → Expr σ τ
  | .alt as, .alt bs => .alt (as ++ bs)
  | .alt as, b => .alt (as ++ [b])
  | a, .alt bs => .alt (a :: bs)
  | a, b => .alt [a, b]

instance : Append (Expr σ τ) := ⟨followedBy⟩

instance : OrElse (Expr σ τ) := ⟨fun a b => a.either (b ())⟩

/-- An expression or the empty text. -/
def optional (e : Expr σ τ) : Expr σ τ := e.either .empty

end Expr

/-! ## Diagnostic text -/

instance [Inspect τ] : Inspect (Yield σ τ) where
  inspect
    | .fixed token => Text.call "Token" [inspect token]
    | .ofSymbols _ => Text.call "With" ["<fn>"]

instance : Inspect Observer where
  inspect observer :=
    Text.openRecord "Hook"
      [("matches_without_input", inspect observer.passes),
       ("consumes_input", inspect observer.consumes)]

/-- The labelled fields of a symbol set. -/
def SymbolSet.fields [Inspect σ] (set : SymbolSet σ) : List (String × String) :=
  [("negate", inspect set.negated), ("symbols", inspect set.listed)]

namespace Expr

variable [Inspect σ] [Inspect τ]

mutual

/-- The diagnostic text of an expression. -/
def describe : Expr σ τ → String
  | .empty => "Empty"
  | .oneOf set => Text.record "TerminalSet" set.fields
  | .literal run => Text.record "TerminalLiteral" [("symbols", inspect run)]
  | .guard set => Text.record "Barrier" set.fields
  | .seq parts => Text.call "Sequence" [Text.list (describeAll parts)]
  | .alt choices => Text.call "Disjunction" [Text.list (describeAll choices)]
  | .star body => Text.call "Recurse" [describe body]
  | .times body count => Text.call "Repeat" [describe body, inspect count]
  | .rule index => Text.call "Reference" [inspect index]
  | .emit body yields => Text.call "Emit" [describe body, inspect yields]
  | .fold body _ => Text.call "Reemit" [describe body, ".."]
  | .observe observer => Text.call "Custom" [inspect observer]

/-- The diagnostic texts of a list of expressions. -/
def describeAll : List (Expr σ τ) → List String
  | [] => []
  | e :: es => describe e :: describeAll es

end

instance : Inspect (Expr σ τ) := ⟨describe⟩

end Expr

end Ramify
