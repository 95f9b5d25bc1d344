import Codegen.Frame
import Codegen.Instr

/-!
# Spilling

A spilled register lives in a slot of the frame. Every instruction that refers to it gets a fresh
register of its own instead, loaded before the instruction if it reads and stored after it if it
writes.
-/

namespace Codegen

/-- The instructions that load a register from a slot and store it there, given the frame pointer
and the offset of the slot. -/
structure SpillCode where
  load : Option Reg → Int64 → Reg → Instr
  store : Option Reg → Int64 → Reg → Instr

/-- The list with every occurrence of a register replaced. -/
def replaceReg (r : Option Reg) (t : Reg) (list : List (Option Reg)) : List (Option Reg) :=
  list.map fun x => if x = r then some t else x

/-- The instruction with every reference to a register replaced. -/
def Instr.replaceReg (r : Option Reg) (t : Reg) (x : Instr) : Instr :=
  { x with reads := Codegen.replaceReg r t x.reads, writes := Codegen.replaceReg r t x.writes }

/-- Replace the references of each instruction to `r` by a fresh register, loaded before and stored
after it where it has to be. -/
def Code.detach (r : Option Reg) (load store : Reg → Instr) : Code → Supply → Code × Supply
  | [], s => ([], s)
  | x :: rest, s =>
    if x.reads.contains r || x.writes.contains r then
      let (t, s) := s.freshReg
      let (rest, s) := Code.detach r load store rest s
      ((if x.reads.contains r then [load t] else []) ++ [x.replaceReg r t]
        ++ (if x.writes.contains r then [store t] else []) ++ rest, s)
    else
      let (rest, s) := Code.detach r load store rest s
      (x :: rest, s)

/-- Move a register to a new slot of the frame. -/
def Code.spill (sc : SpillCode) (f : Frame) (code : Code) (r : Option Reg) (s : Supply) :
    Code × Frame × Supply :=
  let (off, f) := f.allocSlot
  let (code, s) := Code.detach r (sc.load f.fp off) (sc.store f.fp off) code s
  (code, f, s)

end Codegen
