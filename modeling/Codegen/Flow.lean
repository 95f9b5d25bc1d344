import Codegen.Error
import Codegen.Instr

/-!
# Flow graphs

Which instructions may follow each other: the next one unless control leaves, and those that place
the labels of the instruction's destinations. Every label may be placed once, and every destination
must be placed.
-/

namespace Codegen

/-- For each instruction those that may follow it, and those that it may follow. -/
structure Flow where
  succ : Array (List Nat)
  pred : Array (List Nat)
deriving DecidableEq, Repr, Inhabited

namespace Flow

/-- The instructions from which control may come to instruction `i`. -/
def predOf (g : Flow) (i : Nat) : List Nat := g.pred.getD i []

/-- The instructions to which control may go from instruction `i`. -/
def succOf (g : Flow) (i : Nat) : List Nat := g.succ.getD i []

/-- The places of labels, in order, of the instructions from number `i` on; a label that was placed
before is an error. -/
def placesFrom (placed : List (Label × Nat)) (i : Nat) : Code → Except Error (List (Label × Nat))
  | [] => .ok placed
  | x :: rest =>
    match x.label with
    | none => placesFrom placed (i + 1) rest
    | some l =>
      match placed.lookup l with
      | some j => .error (.placedTwice (some l) j i)
      | none => placesFrom (placed ++ [(l, i)]) (i + 1) rest

/-- The places of all labels. -/
def places (code : Code) : Except Error (List (Label × Nat)) := placesFrom [] 0 code

/-- A list with a further element, unless it is there already. -/
def insertNew (list : List Nat) (j : Nat) : List Nat :=
  if list.contains j then list else list ++ [j]

/-- The instructions at the destinations of instruction `i`. -/
def destsOf (placed : List (Label × Nat)) (i : Nat) (x : Instr) : Except Error (List Nat) :=
  x.dests.mapM fun l =>
    match l.bind fun l => placed.lookup l with
    | some j => .ok j
    | none => .error (.unknownLabel i x.text l)

/-- The successors of instruction `i` among `n`: the next one first, each once. -/
def succsOf (placed : List (Label × Nat)) (n i : Nat) (x : Instr) : Except Error (List Nat) := do
  let dests ← destsOf placed i x
  let next := if x.fallsThrough && i + 1 < n then [i + 1] else []
  return (next ++ dests).foldl insertNew []

/-- The successors of the instructions from number `i` on. -/
def succsFrom (placed : List (Label × Nat)) (n i : Nat) : Code → Except Error (List (List Nat))
  | [] => .ok []
  | x :: rest => do
    let js ← succsOf placed n i x
    let rest ← succsFrom placed n (i + 1) rest
    return js :: rest

/-- The instructions that have `j` among their successors, in order. -/
def predsOf (succ : Array (List Nat)) (j : Nat) : List Nat :=
  (List.range succ.size).filter fun i => (succ.getD i []).contains j

/-- The flow graph of a list of instructions. -/
def ofCode (code : Code) : Except Error Flow := do
  let placed ← places code
  let succ ← succsFrom placed code.length 0 code
  let succ := succ.toArray
  return { succ, pred := Array.ofFn fun j : Fin succ.size => predsOf succ j }

end Flow

end Codegen
