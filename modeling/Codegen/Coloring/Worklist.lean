import Codegen.Wire

/-!
# Worklists

The states that registers and moves go through while registers are colored, and lists of the items
in each state, in the order in which they entered it.
-/

namespace Codegen

/-- The state of a register during coloring. -/
inductive NodeState
  | unprocessed
  /-- A machine register. -/
  | precolored
  /-- Fewer neighbours than colors, and no moves. -/
  | removable
  /-- Fewer neighbours than colors, but still related to moves. -/
  | freezeable
  /-- At least as many neighbours as colors. -/
  | spillable
  /-- Left without a color. -/
  | spilled
  /-- Merged into another register. -/
  | coalesced
  | colored
  /-- Taken out of the graph, to be colored later. -/
  | selected
deriving DecidableEq, Repr, Inhabited

/-- The state of a move between two registers during coloring. -/
inductive MoveState
  /-- Not a move. -/
  | none
  /-- Its registers are one. -/
  | coalesced
  /-- Its registers can not be one. -/
  | constrained
  /-- Given up. -/
  | frozen
  /-- To be looked at. -/
  | coalescable
  /-- Looked at, and not merged for now. -/
  | active
deriving DecidableEq, Repr, Inhabited

/-- States that are numbered from zero on. -/
class Numbered (σ : Type) where
  /-- The number of a state. -/
  number : σ → Nat
  /-- How many states there are. -/
  count : Nat

namespace NodeState

/-- All states in order. -/
def all : List NodeState :=
  [unprocessed, precolored, removable, freezeable, spillable, spilled, coalesced, colored, selected]

/-- The number of a state. -/
def number : NodeState → Nat
  | unprocessed => 0 | precolored => 1 | removable => 2 | freezeable => 3 | spillable => 4
  | spilled => 5 | coalesced => 6 | colored => 7 | selected => 8

/-- The name of a state. -/
def text : NodeState → String
  | unprocessed => "unprocessed" | precolored => "precolored" | removable => "removable"
  | freezeable => "freezeable" | spillable => "spillable" | spilled => "spilled"
  | coalesced => "coalesced" | colored => "colored" | selected => "selected"

/-- The name of the state with the given number, if there is one. -/
def nameOf (code : Int) : String :=
  if code < 0 then "bad" else (all[code.toNat]?.map text).getD "bad"

end NodeState

namespace MoveState

/-- All states in order. -/
def all : List MoveState := [none, coalesced, constrained, frozen, coalescable, active]

/-- The number of a state. -/
def number : MoveState → Nat
  | none => 0 | coalesced => 1 | constrained => 2 | frozen => 3 | coalescable => 4 | active => 5

/-- The name of a state. -/
def text : MoveState → String
  | none => "none" | coalesced => "coalesced" | constrained => "constrained"
  | frozen => "frozen" | coalescable => "coalescable" | active => "active"

/-- The name of the state with the given number, if there is one. -/
def nameOf (code : Int) : String :=
  if code < 0 then "bad" else (all[code.toNat]?.map text).getD "bad"

/-- Whether the move may still be merged. -/
def isOpen : MoveState → Bool
  | coalescable | active => true
  | _ => false

end MoveState

instance : Numbered NodeState := ⟨NodeState.number, 9⟩
instance : Numbered MoveState := ⟨MoveState.number, 6⟩

/-- The states of some items, and for each state the items in it. -/
structure Worklist (σ : Type) where
  /-- The state of each item. -/
  state : Array σ
  /-- For each state the items that entered it, in that order. -/
  lists : Array (List Nat)
deriving Inhabited

namespace Worklist

variable {σ : Type} [Numbered σ] [Inhabited σ]

/-- Items in their first state, not yet on any list. -/
def ofSize (n : Nat) : Worklist σ :=
  { state := Array.replicate n default
    lists := Array.replicate (Numbered.count σ) [] }

/-- The state of an item. -/
def get (w : Worklist σ) (i : Nat) : σ := w.state.getD i default

/-- The items in a state. -/
def list (w : Worklist σ) (s : σ) : List Nat := w.lists.getD (Numbered.number s) []

/-- Enter an item into a state, wherever it was before. -/
def enter (w : Worklist σ) (i : Nat) (s : σ) : Worklist σ :=
  { state := w.state.setIfInBounds i s
    lists := w.lists.modify (Numbered.number s) (· ++ [i]) }

/-- Take an item off the list of its state. -/
def leave (w : Worklist σ) (i : Nat) : Worklist σ :=
  { w with lists := w.lists.modify (Numbered.number (w.get i)) (·.erase i) }

/-- Bring an item into a state. -/
def set (w : Worklist σ) (i : Nat) (s : σ) : Worklist σ := (w.leave i).enter i s

end Worklist

end Codegen
