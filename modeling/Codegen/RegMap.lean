import Codegen.Register

/-!
# Register maps

The machine register that stands for each register, looked up by the register's number. Entries are
kept in increasing order of numbers, and a later assignment to a number replaces an earlier one.
-/

namespace Codegen

/-- An assignment of registers to register numbers; an entry may also say that there is none. -/
structure RegMap where
  /-- Numbers with what stands for them, in increasing order of numbers. -/
  entries : List (Nat × Option Reg) := []
deriving DecidableEq, Repr, Inhabited

namespace RegMap

/-- The map that assigns nothing. -/
def empty : RegMap := {}

/-- Put an entry in its place among entries in increasing order. -/
def insertEntry (id : Nat) (r : Option Reg) : List (Nat × Option Reg) → List (Nat × Option Reg)
  | [] => [(id, r)]
  | e :: rest =>
    if id < e.1 then (id, r) :: e :: rest
    else if id = e.1 then (id, r) :: rest
    else e :: insertEntry id r rest

/-- Let `r` stand for the register `v`. -/
def assign (m : RegMap) (v : Reg) (r : Option Reg) : RegMap :=
  { entries := insertEntry v.id r m.entries }

/-- What stands for the register `v`, if anything does. -/
def get? (m : RegMap) (v : Reg) : Option Reg :=
  (m.entries.find? (·.1 == v.id)).bind (·.2)

/-- Take over all entries of another map. -/
def merge (m n : RegMap) : RegMap :=
  { entries := n.entries.foldl (fun es e => insertEntry e.1 e.2 es) m.entries }

/-- What the register is printed as: what stands for it, or itself. -/
def resolve (m : RegMap) (v : Reg) : Reg := (m.get? v).getD v

end RegMap

end Codegen
