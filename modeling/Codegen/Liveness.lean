import Codegen.Bitmap.Basic
import Codegen.Flow

/-!
# Liveness

Registers are numbered in the order in which code refers to them first. A register is live after an
instruction if control can go from there to one that reads it without passing one that writes it.
One register, usually the frame pointer, can be left out of the account.
-/

namespace Codegen

/-- The registers met so far, and how often each was referred to. -/
structure Numbering where
  regs : Array (Option Reg) := #[]
  count : Array Nat := #[]
deriving DecidableEq, Repr, Inhabited

namespace Numbering

/-- The number of a register. -/
def index? (n : Numbering) (r : Option Reg) : Option Nat := n.regs.findIdx? (· == r)

/-- The number of a register, which gets the next one if it has none. -/
def number (n : Numbering) (r : Option Reg) : Nat × Numbering :=
  match n.index? r with
  | some i => (i, n)
  | none => (n.regs.size, { regs := n.regs.push r, count := n.count.push 0 })

/-- Refer to a register, given the numbers that the instruction refers to already: those numbers
with it, each once. -/
def refer (ignore : Option Reg) (acc : List Nat × Numbering) (r : Option Reg) :
    List Nat × Numbering :=
  if r = ignore then acc
  else
    let (i, n) := acc.2.number r
    if acc.1.contains i then (acc.1, n)
    else (acc.1 ++ [i], { n with count := n.count.modify i (· + 1) })

/-- Refer to several registers. -/
def referAll (ignore : Option Reg) (n : Numbering) (rs : List (Option Reg)) :
    List Nat × Numbering :=
  rs.foldl (refer ignore) ([], n)

end Numbering

/-- What each instruction reads and writes, by numbers. -/
structure Refs where
  uses : List Nat
  defs : List Nat
  /-- Whether it copies one register that counts to another. -/
  isMove : Bool
deriving DecidableEq, Repr, Inhabited

/-- The references of all instructions, and the numbering after them. -/
def Numbering.ofCode (ignore : Option Reg) (n : Numbering) : Code → List Refs × Numbering
  | [] => ([], n)
  | x :: rest =>
    let (uses, n) := n.referAll ignore x.reads
    let (defs, n) := n.referAll ignore x.writes
    let isMove := x.isMove && uses.length == 1 && defs.length == 1
    let (refs, n) := Numbering.ofCode ignore n rest
    ({ uses, defs, isMove } :: refs, n)

/-- Which registers are live where. -/
structure Liveness where
  regs : Array (Option Reg)
  /-- For each register the number of instructions that read it plus that of those that write it. -/
  count : Array Nat
  refs : Array Refs
  /-- For each instruction the registers that are live after it. -/
  liveAfter : Array Bitmap
deriving Inhabited

namespace Liveness

/-- Mark what comes before the instructions of a stack, backward as long as `defines` does not
stop it. -/
def spread (pred : Nat → List Nat) (defines : Nat → Bool) :
    Nat → List Nat → Bitmap → Bitmap
  | 0, _, marked => marked
  | _, [], marked => marked
  | fuel + 1, m :: stack, marked =>
    let new := (pred m).filter fun p => !marked.contains p
    spread pred defines fuel ((new.filter fun p => !defines p) ++ stack)
      (new.foldl Bitmap.insert marked)

/-- The instructions after which a register is live. Each instruction is put on the stack at most
once for being marked, which bounds the steps. -/
def liveAt (g : Flow) (refs : Array Refs) (r : Nat) : Bitmap :=
  let n := refs.size
  let readers := (List.range n).filter fun i => (refs.getD i default).uses.contains r
  spread g.predOf (fun p => (refs.getD p default).defs.contains r) (readers.length + n) readers
    (Bitmap.withCapacity n)

/-- The registers of which the given sets contain an instruction, as a set below `n`. -/
def membersAt (sets : Array Bitmap) (i : Nat) : Bitmap :=
  (List.range sets.size).foldl
    (fun live r => if (sets.getD r .empty).contains i then live.insert r else live)
    (Bitmap.withCapacity sets.size)

/-- The liveness of code with the given flow graph; `ignore` is left out of the account. -/
def ofFlow (g : Flow) (code : Code) (ignore : Option Reg) : Liveness :=
  let (refs, n) := Numbering.ofCode ignore {} code
  let refs := refs.toArray
  let sets := Array.ofFn fun r : Fin n.regs.size => liveAt g refs r
  { regs := n.regs, count := n.count, refs
    liveAfter := Array.ofFn fun i : Fin refs.size => membersAt sets i }

/-- The number of a register. -/
def index? (l : Liveness) (r : Option Reg) : Option Nat := l.regs.findIdx? (· == r)

/-- The register with a number. -/
def reg (l : Liveness) (n : Nat) : Option Reg := l.regs.getD n none

/-- What an instruction reads and writes. -/
def refsOf (l : Liveness) (i : Nat) : Refs := l.refs.getD i default

/-- The registers live after an instruction. -/
def after (l : Liveness) (i : Nat) : Bitmap := l.liveAfter.getD i .empty

/-- The registers live after an instruction, by their numbers in increasing order. -/
def regsAfter (l : Liveness) (i : Nat) : List (Option Reg) := (l.after i).toList.map l.reg

/-- The source and the destination of a copy between two different registers. -/
def movePair? (l : Liveness) (i : Nat) : Option (Nat × Nat) :=
  match (l.refsOf i).isMove, (l.refsOf i).uses, (l.refsOf i).defs with
  | true, [u], [d] => if u = d then none else some (u, d)
  | _, _, _ => none

end Liveness

end Codegen
