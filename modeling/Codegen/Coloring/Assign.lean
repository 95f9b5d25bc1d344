import Codegen.Coloring.Step

/-!
# Assigning colors

The nodes that were taken out get the first color that none of their neighbours has, the last one
taken out first; a node for which there is none is spilled. Merged nodes get the color of what they
were merged into. `clash?` looks for two registers of one color that are in use at the same time.
-/

namespace Codegen.Coloring

/-- The colors that the neighbours of a node have. -/
def usedColors (c : Coloring) (n : Nat) : List Nat :=
  (c.neighbours.getD n []).filterMap fun t =>
    let a := c.find t
    if c.node a = .precolored || c.node a = .colored then c.colorOf a else none

/-- The first color that no neighbour of a node has. -/
def freeColor? (c : Coloring) (n : Nat) : Option Nat :=
  let used := c.usedColors n
  (List.range c.k).find? fun i => !used.contains i

/-- Color a node, or spill it. -/
def assignNode (c : Coloring) (n : Nat) : Coloring :=
  match c.freeColor? n with
  | some color =>
    { c.setNode n .colored with color := c.color.setIfInBounds n (some color) }
  | none => c.setNode n .spilled

/-- Color a merged node. -/
def inheritColor (c : Coloring) (n : Nat) : Coloring :=
  { c with color := c.color.setIfInBounds n (c.colorOf (c.find n)) }

/-- Color the nodes that were taken out, and then the merged ones. -/
def assign (c : Coloring) : Coloring :=
  let c := (c.nodes.list .selected).reverse.foldl assignNode c
  (c.nodes.list .coalesced).foldl inheritColor c

/-- The state of all nodes and moves, to be told. -/
def dump (phase : Phase) (c : Coloring) : Array Event :=
  let nodes := (List.range c.size).map fun n =>
    Event.node phase (c.live.reg n) (c.node n) (c.colorOf n) (c.degreeOf n)
      ((c.adjOf n).toList.map c.live.reg)
  let moves := (List.range c.live.refs.size).filterMap fun m =>
    match c.move m, c.live.movePair? m with
    | .none, _ | _, none => none
    | s, some (src, dst) => some (Event.move phase m (c.live.reg dst) (c.live.reg src) s)
  (nodes ++ moves).toArray

/-- Color the graph. -/
def run (c : Coloring) : Coloring × Array Event :=
  let c := c.build.classify
  let (reduced, log) := reduce c.stepBound c (dump .classified c)
  let colored := reduced.assign
  (colored, log ++ dump .colored colored)

/-- A register of the color of the defined register `d` that is live after instruction `i`. -/
def clashWith? (c : Coloring) (i d : Nat) : Option Error :=
  (c.colorOf d).bind fun color =>
    ((c.live.after i).toList.find? fun v =>
      v ≠ d && some v ≠ copied c.live i && c.colorOf v == some color).map fun v =>
        .colorClash i (c.live.reg d) (c.live.reg v) color

/-- Two registers of one color that are in use at the same time, if there are any. -/
def clash? (c : Coloring) : Option Error :=
  (List.range c.live.refs.size).findSome? fun i =>
    (c.live.refsOf i).defs.findSome? (c.clashWith? i)

/-- The merged registers in groups, each begun by the register they were merged into. -/
def groups (c : Coloring) : List (List (Option Reg)) :=
  let merged := c.nodes.list .coalesced
  (eachOnce (merged.map c.find)).map fun rep =>
    c.live.reg rep :: (merged.filter fun n => c.find n = rep).map c.live.reg

end Codegen.Coloring
