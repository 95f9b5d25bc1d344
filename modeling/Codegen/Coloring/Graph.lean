import Codegen.Coloring.Cost
import Codegen.Coloring.Worklist
import Codegen.Liveness

/-!
# Interference graphs

One attempt to give each register of some code one of `k` colors such that registers in use at the
same time get different ones. Registers are the nodes, by their numbers; two interfere if one is
written while the other is live, except that the source of a copy does not interfere with its
destination for the sake of the copy. Machine registers have their colors from the start; their
neighbours and degrees are not kept.
-/

namespace Codegen

/-- The state of an attempt to color registers. -/
structure Coloring where
  live : Liveness
  /-- The colors for virtual registers are those below `k`. -/
  k : Nat
  nodes : Worklist NodeState
  moves : Worklist MoveState
  /-- For each node the set of its neighbours. -/
  adj : Array Bitmap
  /-- For each node that is no machine register its neighbours in the order in which they came. -/
  neighbours : Array (List Nat)
  /-- The number of neighbours that are still in the graph. -/
  degree : Array Int
  /-- The degrees of the graph as it was built. -/
  firstDegree : Array Int
  /-- For each node the moves that it is part of. -/
  related : Array (List Nat)
  /-- For each merged node the node it was merged into. -/
  mergedInto : Array Nat
  color : Array (Option Nat)
  /-- Registers made for spills. -/
  temporaries : Bitmap
deriving Inhabited

namespace Coloring

/-- No edges, no colors. -/
def start (live : Liveness) (k : Nat) : Coloring :=
  let n := live.regs.size
  { live, k
    nodes := .ofSize n
    moves := .ofSize live.refs.size
    adj := Array.replicate n (.withCapacity n)
    neighbours := Array.replicate n []
    degree := Array.replicate n 0
    firstDegree := Array.replicate n 0
    related := Array.replicate n []
    mergedInto := Array.replicate n 0
    color := Array.replicate n none
    temporaries := .withCapacity n }

/-- The number of nodes. -/
def size (c : Coloring) : Nat := c.live.regs.size

/-- The state of a node. -/
def node (c : Coloring) (n : Nat) : NodeState := c.nodes.get n

/-- The state of a move. -/
def move (c : Coloring) (m : Nat) : MoveState := c.moves.get m

/-- Bring a node into a state. -/
def setNode (c : Coloring) (n : Nat) (s : NodeState) : Coloring :=
  { c with nodes := c.nodes.set n s }

/-- Bring a move into a state. -/
def setMove (c : Coloring) (m : Nat) (s : MoveState) : Coloring :=
  { c with moves := c.moves.set m s }

/-- The degree of a node. -/
def degreeOf (c : Coloring) (n : Nat) : Int := c.degree.getD n 0

/-- The color of a node. -/
def colorOf (c : Coloring) (n : Nat) : Option Nat := c.color.getD n none

/-- The neighbours of a node as a set. -/
def adjOf (c : Coloring) (n : Nat) : Bitmap := c.adj.getD n .empty

/-- Whether two nodes interfere. -/
def interferes (c : Coloring) (a b : Nat) : Bool := (c.adjOf a).contains b

/-- Whether a node is a machine register. -/
def isMachine (c : Coloring) (n : Nat) : Bool := c.node n = .precolored

/-- Give a machine register its color. -/
def precolor (c : Coloring) (n color : Nat) : Coloring :=
  { c with color := c.color.setIfInBounds n (some color), nodes := c.nodes.enter n .precolored }

/-- Note a neighbour of a node, unless it is a machine register. -/
def note (c : Coloring) (a b : Nat) : Coloring :=
  if c.isMachine a then c
  else { c with
    neighbours := c.neighbours.modify a (· ++ [b])
    degree := c.degree.modify a (· + 1) }

/-- Let two nodes interfere. -/
def connect (c : Coloring) (a b : Nat) : Coloring :=
  if a = b || c.interferes a b then c
  else
    let c := { c with adj := (c.adj.modify a (·.insert b)).modify b (·.insert a) }
    (c.note a b).note b a

/-- Note a move between two registers. -/
def relate (c : Coloring) (i : Nat) : Coloring :=
  match c.live.movePair? i with
  | none => c
  | some (u, d) => { c with
      moves := c.moves.enter i .coalescable
      related := (c.related.modify u (· ++ [i])).modify d (· ++ [i]) }

/-- The register whose copy does not interfere: the source of a move. -/
def copied (l : Liveness) (i : Nat) : Option Nat := (l.movePair? i).map (·.1)

/-- The edges that an instruction makes: what it writes interferes with what is live after it. -/
def buildAt (c : Coloring) (i : Nat) : Coloring :=
  let c := c.relate i
  let live := (c.live.after i).toList.filter fun v => some v ≠ copied c.live i
  (c.live.refsOf i).defs.foldl (fun c d => live.foldl (fun c v => c.connect d v) c) c

/-- The graph of all instructions. -/
def build (c : Coloring) : Coloring :=
  let c := (List.range c.live.refs.size).foldl buildAt c
  { c with firstDegree := c.degree }

/-- The state that a node starts from. -/
def firstState (c : Coloring) (n : Nat) : NodeState :=
  if (c.k : Int) ≤ c.degreeOf n then .spillable
  else if (c.related.getD n []).isEmpty then .removable
  else .freezeable

/-- Sort a node, unless it is a machine register. -/
def classifyNode (c : Coloring) (n : Nat) : Coloring :=
  if c.isMachine n then c else { c with nodes := c.nodes.enter n (c.firstState n) }

/-- Sort all nodes. -/
def classify (c : Coloring) : Coloring := (List.range c.size).foldl classifyNode c

/-- The neighbours of a node that are still in the graph. -/
def adjacent (c : Coloring) (n : Nat) : List Nat :=
  (c.neighbours.getD n []).filter fun m => c.node m ≠ .selected && c.node m ≠ .coalesced

/-- The moves of a node that may still be merged. -/
def openMoves (c : Coloring) (n : Nat) : List Nat :=
  (c.related.getD n []).filter fun m => (c.move m).isOpen

/-- Whether some move of a node may still be merged. -/
def isMoveRelated (c : Coloring) (n : Nat) : Bool :=
  (c.related.getD n []).any fun m => (c.move m).isOpen

/-- Follow merged nodes for the given number of steps. -/
def findFrom (c : Coloring) : Nat → Nat → Nat
  | 0, n => n
  | fuel + 1, n => if c.node n = .coalesced then c.findFrom fuel (c.mergedInto.getD n 0) else n

/-- The node that stands for a node: itself, or the one it was merged into. No chain of mergers is
longer than the number of nodes. -/
def find (c : Coloring) (n : Nat) : Nat := c.findFrom c.size n

end Coloring

end Codegen
