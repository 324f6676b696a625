import Ramify.Text.Inspect

/-!
# Resource limits of a parse

Every limit is a 64-bit count.  The largest count stands for "no limit", and
is what each limit is unless something else is asked for: what a parse holds is
counted in 64 bits too, so nothing is beyond the largest count.
-/

namespace Ramify

/-- The largest 64-bit count. -/
def maxCount : Nat := UInt64.size - 1

/-- How much work one parse may do. -/
structure Limits where
  /-- The most frames that one branch may hold. -/
  depth : Nat := maxCount
  /-- The most branches that may be live after a symbol. -/
  branches : Nat := maxCount
  /-- The most symbols that a parse takes. -/
  symbols : Nat := maxCount
  deriving DecidableEq

namespace Limits

/-- No limits at all. -/
def unlimited : Limits := {}

instance : Inhabited Limits := ⟨unlimited⟩

/-- Whether a number of frames or of branches is beyond a limit.  None is beyond
the largest count. -/
def isExceeded (limit count : Nat) : Bool :=
  limit < count && limit < maxCount

/-- The same limits with the depth left open. -/
def anyDepth (limits : Limits) : Limits :=
  { limits with depth := maxCount }

/-- Whether nothing is limited. -/
def isUnlimited (limits : Limits) : Bool :=
  limits = unlimited

instance : Inspect Limits where
  inspect limits :=
    Text.record "ParseConfig"
      [("max_recursion_depth", inspect limits.depth),
       ("max_branches", inspect limits.branches),
       ("max_symbols", inspect limits.symbols)]

end Limits

end Ramify
