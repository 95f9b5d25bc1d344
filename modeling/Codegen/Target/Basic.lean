import Codegen.Frame
import Codegen.Selection
import Codegen.Spill

/-!
# Targets

A target is a machine that code is generated for: its catalog, the words of its assembler, and the
registers with a fixed part in calls. Arguments go in the parameter registers of the catalog and
behind those on the stack, the last one first; a nested function gets the frame pointer of its
parent in a register of its own. A function keeps the callee-save registers in fresh registers while
it runs.
-/

namespace Codegen

/-- The words of an assembler, with slots for registers. -/
structure Dialect where
  /-- Copy a register. -/
  copy : String
  /-- Load a register from an offset off the frame pointer. -/
  load : Int64 → String
  /-- Store a register at an offset off the frame pointer. -/
  store : Int64 → String
  /-- Push a register. -/
  push : String
  /-- The bytes that an argument takes on the stack. -/
  stackStep : Nat
  /-- Code that keeps the stack aligned before an odd number of pushes, where that is needed. -/
  pad : Option String
  /-- Drop a number of bytes from the stack. -/
  drop : Nat → String
  /-- Return to the caller. -/
  ret : String
  /-- Set up the frame pointer. -/
  enter : List String
  /-- Reserve a number of bytes below the frame pointer. -/
  reserve : Int64 → String
  /-- Give up the frame. -/
  leave : List String
  /-- Begin the static data. -/
  dataSection : String

/-- A machine that code is generated for. -/
structure Target where
  catalog : Catalog
  dialect : Dialect
  fp : Reg
  /-- The register that passes the frame pointer of a parent. -/
  link : Reg
  /-- What comes before all functions, given the label of the first one. -/
  entry : Option Label → Supply → Code × Supply

/-- The bytes of a machine word. -/
def wordBytes : Int64 := 8

/-- An instruction without registers. -/
def Instr.plain (text : String) : Instr := { text }

/-- The instruction that places a label. -/
def Instr.place (l : Label) : Instr := { text := l.text ++ ":", label := some l }

namespace Dialect

/-- Copy a register. -/
def move (d : Dialect) (dst src : Option Reg) : Instr := .copy d.copy dst src

/-- Load a register from a slot. -/
def loadSlot (d : Dialect) (fp : Option Reg) (off : Int64) (r : Reg) : Instr :=
  { text := d.load off, reads := [fp], writes := [some r] }

/-- Store a register at an offset off the frame pointer. -/
def storeAt (d : Dialect) (fp : Option Reg) (off : Int64) (src : Option Reg) : Instr :=
  { text := d.store off, reads := [src, fp] }

/-- Put a register where a location says. -/
def storeLoc (d : Dialect) (fp : Option Reg) (src : Option Reg) : Loc → Instr
  | .reg r => d.move (some r) src
  | .offset off => d.storeAt fp off src

/-- How registers are spilled. -/
def spillCode (d : Dialect) : SpillCode :=
  { load := d.loadSlot, store := fun fp off r => d.storeAt fp off (some r) }

end Dialect

namespace Target

/-- The name of the target. -/
def name (t : Target) : String := t.catalog.name

/-- The number of arguments that go in registers. -/
def regParams (t : Target) : Nat := t.catalog.params.length

/-- Where the argument with the given number is found when it came on the stack: above the saved
frame pointer and the return address. -/
def stackParam (t : Target) (i : Nat) : Loc :=
  .offset (2 * wordBytes + Int64.ofNat (i - t.regParams) * Int64.ofNat t.dialect.stackStep)

/-- The locations of parameters from number `i` on. -/
def paramLocs (t : Target) (i : Nat) : Nat → Supply → List Loc × Supply
  | 0, s => ([], s)
  | left + 1, s =>
    if i < t.regParams then
      let (r, s) := s.freshReg
      let (rest, s) := t.paramLocs (i + 1) left s
      (.reg r :: rest, s)
    else
      let (rest, s) := t.paramLocs (i + 1) left s
      (t.stackParam i :: rest, s)

/-- The frame of a new function. -/
def newFrame (t : Target) (name : String) (params : Nat) (nested : Bool) (s : Supply) :
    Frame × Supply :=
  let (label, s) := s.namedLabel name
  let (locs, s) := t.paramLocs 0 params s
  let frame : Frame := { label, params := locs, fp := some t.fp, word := wordBytes }
  if nested then
    let (r, s) := s.freshReg
    ({ frame with parent := some (.reg r) }, s)
  else (frame, s)

/-- The number of places that `n` stack arguments take. -/
def stackPlaces (t : Target) (n : Nat) : Nat := if t.dialect.pad.isSome then n + n % 2 else n

/-- The code that places arguments and a link for a call, and the registers that hold them. -/
def placeArgs (t : Target) (args : List (Option Reg)) (link : Option Reg) :
    Code × List (Option Reg) :=
  let stack := args.drop t.regParams
  let pad := if stack.length % 2 = 0 then [] else t.dialect.pad.toList.map Instr.plain
  let pushes := stack.reverse.map fun r => { text := t.dialect.push, reads := [r] }
  let inRegs := args.zip t.catalog.params
  let moves := inRegs.map fun (a, p) => t.dialect.move p a
  let parent := if link.isSome then [t.dialect.move (some t.link) link] else []
  (pad ++ pushes ++ moves ++ parent,
    inRegs.map (·.2) ++ (if link.isSome then [some t.link] else []))

/-- The code that drops the arguments of a call from the stack. -/
def removeArgs (t : Target) (args : List (Option Reg)) : Code :=
  let n := args.length - t.regParams
  if n = 0 then [] else [.plain (t.dialect.drop (t.stackPlaces n * t.dialect.stackStep))]

/-- How the target calls. -/
def convention (t : Target) : Convention :=
  { place := fun args link => some (t.placeArgs args link), remove := t.removeArgs }

/-- What selection for the target works with. -/
def kit (t : Target) : Selection.Kit := { catalog := t.catalog, convention := some t.convention }

/-- Fresh registers for the callee-save ones, with the code that saves them. -/
def saveRegs (t : Target) : List (Option Reg) → Supply → Code × List (Option Reg) × Supply
  | [], s => ([], [], s)
  | r :: rest, s =>
    let (save, s) := s.freshReg
    let (code, saved, s) := t.saveRegs rest s
    (t.dialect.move (some save) r :: code, some save :: saved, s)

/-- The begin of a function: its label, the parameters put where they belong, and the callee-save
registers saved. Also the registers that hold those. -/
def prologue (t : Target) (f : Frame) (s : Supply) : Code × List (Option Reg) × Supply :=
  let params := (f.params.zip t.catalog.params).map fun (loc, r) => t.dialect.storeLoc f.fp r loc
  let parent := f.parent.toList.map (t.dialect.storeLoc f.fp (some t.link))
  let (saves, saved, s) := t.saveRegs t.catalog.calleeSave s
  (.place f.label :: params ++ parent ++ saves, saved, s)

/-- The end of a function: the callee-save registers restored, and the return, which reads them and
the result if there is one. -/
def epilogue (t : Target) (saved : List (Option Reg)) (result : Bool) : Code :=
  let restores := (t.catalog.calleeSave.zip saved).map fun (r, s) => t.dialect.move r s
  restores ++ [{ text := t.dialect.ret
                 reads := t.catalog.calleeSave ++ (if result then [t.catalog.result] else []) }]

/-- The bytes that a frame reserves: its size rounded up to a multiple of sixteen. -/
def frameBytes (f : Frame) : Int64 := (f.size + 15) &&& ~~~15

/-- The code of a function with its frame set up behind the label and given up before the last
instruction. -/
def finish (t : Target) (f : Frame) (code : Code) : Code :=
  let labelled := (code.head?.bind (·.label)) == some f.label
  let body := if labelled then code.drop 1 else code
  let reserve := if frameBytes f = 0 then [] else [t.dialect.reserve (frameBytes f)]
  (if labelled then code.take 1 else [])
    ++ (t.dialect.enter ++ reserve).map Instr.plain
    ++ body.dropLast ++ t.dialect.leave.map Instr.plain ++ body.getLast?.toList

end Target

/-- Templates as they are written down for a machine: ‹ and › stand for the braces of placeholders. -/
def Skeleton.marked (s : String) : String :=
  s.map fun c => if c = '‹' then '\x7b' else if c = '›' then '\x7d' else c

/-- A template as it is written down for a machine. -/
structure TemplateSource where
  pattern : Node
  skeletons : List Skeleton
  wide : Bool := false

/-- The catalog after further templates were added to it, whether or not they are well-formed. -/
def Catalog.addAll (c : Catalog) (ts : List TemplateSource) : Catalog :=
  ts.foldl (fun c t => (add t.pattern t.skeletons t.wide).stateAfter c) c

namespace TemplateSource

/-- An instruction. -/
def op (text : String) : Skeleton := { text := Skeleton.marked text }

/-- A copy of a register. -/
def mv (text : String) : Skeleton := { text := Skeleton.marked text, isMove := true }

/-- A jump. -/
def br (text : String) : Skeleton := { text := Skeleton.marked text, isBranch := true }

/-- Any register, or any expression computed into one. -/
def reg : Expr := .temp none

/-- Any constant. -/
def num : Expr := .int 0

/-- Any label. -/
def lab : Expr := .addr none

/-- An operator applied to two operands. -/
def bin (o : Op) (l r : Expr) : Expr := .bin o l r 0

/-- Memory at an address in a register. -/
def mem : Expr := .mem reg

/-- Memory at a constant offset from a register. -/
def memOff : Expr := .mem (bin .add reg num)

/-- Memory at a label. -/
def memLab : Expr := .mem lab

/-- A template for an expression. -/
def value (e : Expr) (skeletons : List Skeleton) : TemplateSource := ⟨.expr e, skeletons, false⟩

/-- A template for an expression with constants of any size. -/
def wideValue (e : Expr) (skeletons : List Skeleton) : TemplateSource := ⟨.expr e, skeletons, true⟩

/-- A template for a statement. -/
def action (s : Stmt) (skeletons : List Skeleton) : TemplateSource := ⟨.stmt s, skeletons, false⟩

/-- A template for a statement with constants of any size. -/
def wideAction (s : Stmt) (skeletons : List Skeleton) : TemplateSource := ⟨.stmt s, skeletons, true⟩

end TemplateSource

end Codegen
