import Ramify.Parse.View

/-!
# Tables of delimited cells

The grammar of comma-separated tables, for any delimiter and quote.  A record
is one or more cells with delimiters between them, and a line end, which is a
line feed with or without a carriage return before it.  A cell is written bare,
without the delimiter, the quote and the two line characters, or between quotes,
where everything may stand and a quote is written twice.
-/

namespace Ramify.Csv

/-- The two characters in which tables differ. -/
structure Dialect where
  /-- Stands between the cells of a record. -/
  delimiter : Char := ','
  /-- Encloses a cell, and is doubled inside it. -/
  quote : Char := '\x22'
  deriving DecidableEq

/-- A row of a table: its cells. -/
abbrev Record := List String

/-- The tokens of a table. -/
inductive Token where
  /-- The content of a cell. -/
  | cell (text : String)
  /-- The cells of a record. -/
  | row (cells : Record)
  deriving DecidableEq

/-! ## Contents of cells -/

/-- Drops a quote and keeps the character after it, whatever it is, so that a
doubled quote becomes one. -/
def undouble (quote : Char) : List Char → List Char
  | [] => []
  | c :: cs =>
    if c = quote then
      match cs with
      | [] => []
      | d :: ds => d :: undouble quote ds
    else c :: undouble quote cs

/-- The content of a cell as it is written: what is between the quotes, if it
stands between two, and otherwise all of it. -/
def content (quote : Char) (written : List Char) : List Char :=
  match written with
  | first :: rest =>
    if first = quote ∧ rest.getLast? = some quote then undouble quote rest.dropLast else written
  | [] => written

/-- The row of the cells among some tokens. -/
def toRow (tokens : List Token) : Token :=
  .row <| tokens.filterMap fun
    | .cell text => some text
    | .row _ => none

/-- The records of the rows among some tokens. -/
def records (tokens : List Token) : List Record :=
  tokens.filterMap fun
    | .row cells => some cells
    | .cell _ => none

/-! ## The grammar -/

namespace Dialect

variable (dialect : Dialect)

/-- A cell that is not quoted. -/
def bareCell : Expr Char Token :=
  .guard (.except [dialect.quote]) ++
    .star (.oneOf (.except [dialect.delimiter, dialect.quote, '\r', '\n']))

/-- A cell between quotes. -/
def quotedCell : Expr Char Token :=
  .oneOf (.of [dialect.quote]) ++
    .star (.oneOf (.except [dialect.quote]) <|> .literal [dialect.quote, dialect.quote]) ++
    .oneOf (.of [dialect.quote])

/-- A cell, which yields its content. -/
def cell : Expr Char Token :=
  .emit (dialect.bareCell <|> dialect.quotedCell) <|
    .ofSymbols fun written => .cell (String.ofList (content dialect.quote written))

/-- The end of a record. -/
def lineEnd : Expr Char Token :=
  .oneOf (.of ['\n']) <|> .literal ['\r', '\n']

/-- A record, which yields its row; `cell` is the rule of cells. -/
def record (cell : RuleId) : Expr Char Token :=
  .fold (.rule cell ++ .star (.oneOf (.of [dialect.delimiter]) ++ .rule cell)) toRow ++ lineEnd

/-- The grammar of a table: any number of records. -/
def grammar : Except Fault (Grammar Char Token) := do
  let (builder, cell) ← Builder.new.addRule "cell" dialect.cell
  let (builder, record) ← builder.addRule "record" (dialect.record cell)
  builder.build (.star (.rule record))

end Dialect

/-! ## Tokens as data -/

instance : ToDatum Token where
  datum
    | .cell text => .list [.str "cell", .str text]
    | .row cells => .list [.str "row", .list (cells.map .str)]

instance : Inspect Token where
  inspect
    | .cell text => Text.call "Cell" [inspect text]
    | .row cells => Text.call "Row" [inspect cells]

end Ramify.Csv
