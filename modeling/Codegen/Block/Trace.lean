import Codegen.Block.Basic

/-!
# Traces

An order of blocks in which most jumps go to the block that comes next. A trace starts from the
earliest block not yet placed and goes on with the successor of each block until that is placed or
not a block. If two blocks carry one label, the later one is found by it.
-/

namespace Codegen.Block

/-- The index of the last block with the given label. -/
def indexOf? (blocks : Array Block) (l : Option Label) : Option Nat :=
  (List.range blocks.size).reverse.find? fun i => (blocks[i]?.map (·.label)) == some l

/-- The index of the successor of a block. -/
def next? (blocks : Array Block) (i : Nat) : Option Nat :=
  (blocks[i]?).bind fun b => indexOf? blocks b.successor

/-- The trace from block `i` through blocks not yet placed, and those that are left. -/
def follow (blocks : Array Block) (unplaced : List Nat) (i : Nat) : List Nat × List Nat :=
  if i ∈ unplaced then
    match next? blocks i with
    | none => ([i], unplaced.erase i)
    | some j =>
      let (trace, left) := follow blocks (unplaced.erase i) j
      (i :: trace, left)
  else ([], unplaced)
termination_by unplaced.length
decreasing_by
  have h : i ∈ unplaced := ‹_›
  rw [List.length_erase_of_mem h]
  have := List.length_pos_of_mem h
  omega

/-- The traces from each of the given starts, one after the other. -/
def traces (blocks : Array Block) : List Nat → List Nat → List Nat
  | [], _ => []
  | start :: rest, unplaced =>
    let (trace, left) := follow blocks unplaced start
    trace ++ traces blocks rest left

/-- All block indices in the order of their traces. -/
def order (blocks : Array Block) : List Nat :=
  traces blocks (List.range blocks.size) (List.range blocks.size)

/-- The blocks in the order of their traces. -/
def arrange (blocks : List Block) : List Block :=
  (order blocks.toArray).filterMap fun i => blocks[i]?

end Codegen.Block
