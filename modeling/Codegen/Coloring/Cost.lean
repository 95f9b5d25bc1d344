/-!
# Spill cost

What it costs to keep a register in memory: the number of instructions that refer to it for every
neighbour it has. A register that must not be spilled costs more than any other.
-/

namespace Codegen

/-- References per neighbour, or no bound. -/
inductive Cost
  | finite (count neighbours : Nat)
  | infinite
deriving DecidableEq, Repr, Inhabited

namespace Cost

/-- Whether one cost is smaller than another, as quotients. -/
def less : Cost → Cost → Bool
  | finite a b, finite c d => a * d < c * b
  | finite _ _, infinite => true
  | infinite, _ => false

/-- The cost as a binary floating-point number. -/
def toFloat : Cost → Float
  | finite a b => Float.ofNat a / Float.ofNat b
  | infinite => 1.0 / 0.0

end Cost

/-- A register that may be spilled, and what it costs. -/
structure Candidate where
  node : Nat
  cost : Cost
deriving DecidableEq, Repr, Inhabited

namespace Candidate

/-- Whether one candidate is to be preferred: it costs less, or the same with a smaller number. -/
def before (a b : Candidate) : Bool :=
  a.cost.less b.cost || !b.cost.less a.cost && a.node < b.node

/-- The candidate to be preferred to all others. -/
def least? : List Candidate → Option Candidate
  | [] => none
  | c :: rest => some (rest.foldl (fun best x => if x.before best then x else best) c)

end Candidate

end Codegen
