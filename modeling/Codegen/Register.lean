import Codegen.Wire

/-!
# Registers, labels and where they come from

A supply hands out registers and labels with increasing numbers and keeps the static data. Two
registers are the same only if they came from the same pool with the same number; their names are
for printing, and those of machine registers also for finding them in a catalog.
-/

namespace Codegen

/-- A register: a machine register if it is named by a catalog, otherwise a virtual one. -/
structure Reg where
  /-- The pool of the supply that made it. -/
  pool : Nat
  /-- Its number within the pool. -/
  id : Nat
  /-- Its name; empty for most virtual registers. -/
  name : String
deriving DecidableEq, Repr, Inhabited

/-- A code label. -/
structure Label where
  /-- The pool of the supply that made it. -/
  pool : Nat
  /-- Its number within the pool. -/
  id : Nat
  /-- Its name; empty for most labels. -/
  name : String
deriving DecidableEq, Repr, Inhabited

/-- The printed name of a register: its own name, or its number. -/
def Reg.text (r : Reg) : String :=
  if r.name.isEmpty then "t" ++ toString r.id else r.name

/-- The printed name of a label: its own name, or its number. -/
def Label.text (l : Label) : String :=
  if l.name.isEmpty then ".L" ++ toString l.id else l.name

/-- The printed name of a register that may be absent. -/
def Reg.render : Option Reg → String
  | none => "_"
  | some r => r.text

/-- The printed name of a label that may be absent. -/
def Label.render : Option Label → String
  | none => "_"
  | some l => l.text

/-- The wire form of a register that may be absent. -/
def Reg.wire : Option Reg → Wire
  | none => .nothing
  | some r => .text r.text

/-- The wire form of a label that may be absent. -/
def Label.wire : Option Label → Wire
  | none => .nothing
  | some l => .text l.text

/-- A labelled piece of static data. -/
structure Blob where
  label : Label
  data : List UInt8
deriving DecidableEq, Repr, Inhabited

/-- What one compilation session has handed out so far. -/
structure Supply where
  /-- Marks what this supply makes. -/
  pool : Nat := 0
  /-- The number of the next label. -/
  labels : Nat := 0
  /-- The number of the next register. -/
  regs : Nat := 0
  /-- Static data in the order it was added. -/
  blobs : List Blob := []
deriving DecidableEq, Repr, Inhabited

namespace Supply

/-- A new register with the given name. -/
def namedReg (s : Supply) (name : String) : Reg × Supply :=
  ({ pool := s.pool, id := s.regs, name }, { s with regs := s.regs + 1 })

/-- A new register without a name. -/
def freshReg (s : Supply) : Reg × Supply := s.namedReg ""

/-- A new label with the given name. -/
def namedLabel (s : Supply) (name : String) : Label × Supply :=
  ({ pool := s.pool, id := s.labels, name }, { s with labels := s.labels + 1 })

/-- A new label without a name. -/
def freshLabel (s : Supply) : Label × Supply := s.namedLabel ""

/-- New registers with the given names, in order. -/
def namedRegs (s : Supply) : List String → List Reg × Supply
  | [] => ([], s)
  | n :: rest =>
    let (r, s) := s.namedReg n
    let (rs, s) := s.namedRegs rest
    (r :: rs, s)

/-- Add static data under a new label. -/
def addBlob (s : Supply) (data : List UInt8) : Label × Supply :=
  let (label, s) := s.freshLabel
  (label, { s with blobs := s.blobs ++ [{ label, data }] })

end Supply

end Codegen
