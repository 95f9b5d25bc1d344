import Codegen.Coloring.Graph
import Codegen.Event

/-!
# Steps of coloring

The graph is taken apart step by step. A node with few neighbours and no moves is taken out; else a
move is looked at and its registers merged if that can not make the graph harder to color; else the
moves of a node with few neighbours are given up; else a node is chosen that may have to be spilled.
-/

namespace Codegen.Coloring

/-- Look again at the moves of a node. -/
def enableMoves (c : Coloring) (n : Nat) : Coloring :=
  (c.openMoves n).foldl
    (fun c m => if c.move m = .active then c.setMove m .coalescable else c) c

/-- A node lost a neighbour. When that leaves it with fewer neighbours than colors, the moves around
it deserve another look, and it may be taken out or merged. -/
def decrement (c : Coloring) (n : Nat) : Coloring :=
  if c.isMachine n then c
  else
    let c := { c with degree := c.degree.modify n (· - 1) }
    if c.degreeOf n ≠ (c.k : Int) - 1 then c
    else
      let c := c.enableMoves n
      let c := (c.adjacent n).foldl enableMoves c
      if c.node n ≠ .spillable then c
      else if c.isMoveRelated n then c.setNode n .freezeable
      else c.setNode n .removable

/-- Take a node out of the graph. -/
def simplify (c : Coloring) (n : Nat) : Coloring :=
  let c := c.setNode n .selected
  (c.adjacent n).foldl decrement c

/-- A node whose last move is decided may be taken out. -/
def unfreeze (c : Coloring) (n : Nat) : Coloring :=
  if c.node n = .freezeable && !c.isMoveRelated n && c.degreeOf n < c.k then
    c.setNode n .removable
  else c

/-- Whether a node can stand in the way of its neighbours. -/
def isSignificant (c : Coloring) (n : Nat) : Bool := c.isMachine n || (c.k : Int) ≤ c.degreeOf n

/-- Whether merging `v` into the machine register `u` is safe: every neighbour of `v` has few
neighbours, is a machine register, or interferes with `u` already. -/
def safeForMachine (c : Coloring) (u v : Nat) : Bool :=
  (c.adjacent v).all fun t => c.degreeOf t < c.k || c.isMachine t || c.interferes t u

/-- The elements of a list, each once. -/
def eachOnce (list : List Nat) : List Nat := list.foldl Flow.insertNew []

/-- Whether merging two virtual registers is safe: together they have fewer than `k` neighbours that
can stand in the way. -/
def safeTogether (c : Coloring) (u v : Nat) : Bool :=
  ((eachOnce (c.adjacent u ++ c.adjacent v)).filter c.isSignificant).length < c.k

/-- Merge node `v` into node `u`. -/
def combine (c : Coloring) (u v : Nat) : Coloring :=
  let c := c.setNode v .coalesced
  let c := { c with
    mergedInto := c.mergedInto.setIfInBounds v u
    related := c.related.modify u (· ++ c.openMoves v) }
  let c := (c.adjacent v).foldl (fun c t => (c.connect t u).decrement t) c
  if (c.k : Int) ≤ c.degreeOf u && c.node u = .freezeable then c.setNode u .spillable else c

/-- What becomes of a move. -/
inductive Verdict
  /-- Its registers are one already. -/
  | same (u : Nat)
  /-- Its registers can not be one. -/
  | constrained (u v : Nat)
  /-- The second register is merged into the first. -/
  | merge (u v : Nat)
  /-- Not for now. -/
  | wait
deriving DecidableEq, Repr

/-- The nodes that stand for the registers of a move, a machine register first. -/
def moveEnds (c : Coloring) (m : Nat) : Nat × Nat :=
  match c.live.movePair? m with
  | none => (0, 0)
  | some (src, dst) =>
    let u := c.find src
    let v := c.find dst
    if c.isMachine v then (v, u) else (u, v)

/-- What becomes of a move that is looked at. -/
def judge (c : Coloring) (m : Nat) : Verdict :=
  let (u, v) := c.moveEnds m
  if u = v then .same u
  else if c.isMachine v || c.interferes u v
      || c.isMachine u && (c.colorOf u).any (c.k ≤ ·) then .constrained u v
  else if c.isMachine u && c.safeForMachine u v || !c.isMachine u && c.safeTogether u v then
    .merge u v
  else .wait

/-- Look at a move. -/
def coalesce (c : Coloring) (m : Nat) : Coloring :=
  match c.judge m with
  | .same u => (c.setMove m .coalesced).unfreeze u
  | .constrained u v => ((c.setMove m .constrained).unfreeze u).unfreeze v
  | .merge u v => ((c.setMove m .coalesced).combine u v).unfreeze u
  | .wait => c.setMove m .active

/-- Give up a move of node `n`. -/
def freezeMove (n : Nat) (c : Coloring) (m : Nat) : Coloring :=
  match c.live.movePair? m with
  | none => c
  | some (src, dst) =>
    let x := c.find src
    let y := c.find dst
    (c.setMove m .frozen).unfreeze (if y = n then x else y)

/-- Give up the moves of a node. -/
def freezeMoves (c : Coloring) (n : Nat) : Coloring :=
  let n := c.find n
  (c.openMoves n).foldl (freezeMove n) c

/-- Take a node out of the graph next, whatever its moves. -/
def giveUp (c : Coloring) (n : Nat) : Coloring := (c.setNode n .removable).freezeMoves n

/-- What it costs to spill a node. -/
def cost (c : Coloring) (n : Nat) : Cost :=
  if c.temporaries.contains n then .infinite
  else
    let first := c.firstDegree.getD n 0
    let d := if first = 0 then c.degreeOf n else first
    if d = 0 then .infinite else .finite (c.live.count.getD n 0) d.toNat

/-- The nodes that may be spilled, with their costs. -/
def candidates (c : Coloring) : List Candidate :=
  (c.nodes.list .spillable).map fun n => ⟨n, c.cost n⟩

/-- A step that takes the graph apart. -/
inductive Step
  | simplify (n : Nat)
  | coalesce (m : Nat)
  | freeze (n : Nat)
  | spill (choice : Candidate)
deriving DecidableEq, Repr

/-- The next step, if there is one. -/
def next? (c : Coloring) : Option Step :=
  match c.nodes.list .removable, c.moves.list .coalescable, c.nodes.list .freezeable with
  | n :: _, _, _ => some (.simplify n)
  | [], m :: _, _ => some (.coalesce m)
  | [], [], n :: _ => some (.freeze n)
  | [], [], [] => (Candidate.least? c.candidates).map .spill

/-- Take a step. -/
def apply (c : Coloring) : Step → Coloring
  | .simplify n => c.simplify n
  | .coalesce m => c.coalesce m
  | .freeze n => c.giveUp n
  | .spill choice => c.giveUp choice.node

/-- What is told about a step before it is taken. -/
def announce (c : Coloring) : Step → Option Event
  | .simplify n => some (.simplify (c.live.reg n) (c.degreeOf n))
  | .coalesce m =>
    match c.judge m with
    | .constrained u v => some (.constrained (c.live.reg v) (c.live.reg u))
    | .merge u v => some (.coalesce (c.live.reg u) (c.live.reg v))
    | .same _ | .wait => none
  | .freeze n => some (.freeze (c.live.reg n))
  | .spill choice =>
    some (.potentialSpill (c.live.reg choice.node) choice.cost c.candidates.length)

/-- Take steps until there is none, at most the given number, and tell about them. -/
def reduce : Nat → Coloring → Array Event → Coloring × Array Event
  | 0, c, log => (c, log)
  | fuel + 1, c, log =>
    match c.next? with
    | none => (c, log)
    | some s => reduce fuel (c.apply s) (log ++ (c.announce s).toArray)

/-- A bound on the number of steps. Every node is prepared and taken out at most once, and between
two such steps every move is looked at no more than once. -/
def stepBound (c : Coloring) : Nat := (2 * c.size + 1) * (c.live.refs.size + 1)

end Codegen.Coloring
