import Codegen.RegMap
import Codegen.Text.Basic

/-!
# Instructions

Selected machine instructions. The text of an instruction names its registers by slots: an
ampersand, `i` or `o`, and a number, for the register it reads or writes in that place. Printing
fills the slots through a register map; registers that the map does not know keep their own names,
and a slot without a register stays as it is.
-/

namespace Codegen

/-- A machine instruction, or a directive or label of the listing. -/
structure Instr where
  text : String
  /-- Registers read. -/
  reads : List (Option Reg) := []
  /-- Registers written. -/
  writes : List (Option Reg) := []
  /-- The label it places. -/
  label : Option Label := none
  /-- Whether it copies one register to another. -/
  isMove : Bool := false
  /-- Labels it may jump to. -/
  dests : List (Option Label) := []
  /-- Whether control may also go on to the next instruction although there are `dests`. -/
  next : Bool := false
deriving DecidableEq, Repr, Inhabited

/-- A list of instructions. -/
abbrev Code := List Instr

namespace Instr

/-- Whether control may reach the next instruction. -/
def fallsThrough (x : Instr) : Bool := x.dests.isEmpty || x.next

/-- The registers that slots of a letter refer to. -/
def slotRegs (x : Instr) (letter : Char) : Option (List (Option Reg)) :=
  if letter = 'i' then some x.reads else if letter = 'o' then some x.writes else none

/-- Fill the slots of a text. There is no answer if a slot refers to an absent register. -/
def fill (x : Instr) (m : RegMap) (cs : List Char) : Option (List Char) :=
  match cs with
  | [] => some []
  | '&' :: letter :: rest =>
    match x.slotRegs letter, Text.readNat? (rest.takeWhile Char.isDigit) with
    | some regs, some n =>
      match regs[n]? with
      | none =>
        (x.fill m (rest.dropWhile Char.isDigit)).map fun tail =>
          '&' :: letter :: rest.takeWhile Char.isDigit ++ tail
      | some none => none
      | some (some r) =>
        (x.fill m (rest.dropWhile Char.isDigit)).map ((m.resolve r).text.toList ++ ·)
    | _, _ => (x.fill m (letter :: rest)).map ('&' :: ·)
  | c :: rest => (x.fill m rest).map (c :: ·)
termination_by cs.length
decreasing_by
  all_goals simp only [List.length_cons]
  all_goals try have := (List.dropWhile_suffix (l := rest) Char.isDigit).length_le
  all_goals omega

/-- The text with its slots filled. -/
def render (m : RegMap) (x : Instr) : Option String :=
  (x.fill m x.text.toList).map String.ofList

/-- The wire form of an instruction that may be absent: its text with registers by their names. -/
def wire : Option Instr → Option Wire
  | none => some .nothing
  | some x => (x.render .empty).map .text

/-- A copy between two registers, in the given words. -/
def copy (text : String) (dst src : Option Reg) : Instr :=
  { text, reads := [src], writes := [dst], isMove := true }

end Instr

namespace Code

/-- The listing: one line per instruction, indented unless it places a label. -/
def render (m : RegMap) : Code → Option String
  | [] => some ""
  | x :: rest => do
    let line ← x.render m
    let tail ← Code.render m rest
    return (if x.label.isNone then "\t" else "") ++ line ++ "\n" ++ tail

/-- Every register reference, in order: per instruction those read, then those written. -/
def regs (code : Code) : List (Option Reg) :=
  code.flatMap fun x => x.reads ++ x.writes

end Code

end Codegen
