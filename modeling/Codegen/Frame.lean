import Codegen.Tree.Basic

/-!
# Frames

Where a function keeps its parameters and what it stores below its frame pointer. Slots are words
handed out downward from the frame pointer; a frame that names no word size uses eight bytes.
-/

namespace Codegen

/-- A place for a word: a register, or an offset from the frame pointer. -/
inductive Loc
  | reg (r : Reg)
  | offset (off : Int64)
deriving DecidableEq, Repr, Inhabited

/-- The expression that reads the place, or that a move writes it by. -/
def Loc.expr (fp : Option Reg) : Loc → Expr
  | reg r => .temp (some r)
  | offset off => .mem (.bin .add (.temp fp) (.int off) 0)

/-- Whether the place is a register. -/
def Loc.isReg : Loc → Bool
  | reg _ => true
  | offset _ => false

/-- The frame of a function. -/
structure Frame where
  label : Label
  params : List Loc := []
  /-- Where the frame pointer of the enclosing function is kept, if there is one. -/
  parent : Option Loc := none
  fp : Option Reg := none
  /-- Bytes of a word. -/
  word : Int64 := 0
  /-- Bytes handed out below the frame pointer. -/
  size : Int64 := 0
deriving DecidableEq, Repr, Inhabited

/-- The bytes that a slot takes. -/
def Frame.slotBytes (f : Frame) : Int64 := if f.word = 0 then 8 else f.word

/-- Hand out a new slot: its offset, and the frame with it. -/
def Frame.allocSlot (f : Frame) : Int64 × Frame :=
  let size := f.size + f.slotBytes
  (-size, { f with size })

end Codegen
