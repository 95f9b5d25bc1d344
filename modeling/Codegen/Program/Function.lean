import Codegen.Allocation
import Codegen.Block.Layout
import Codegen.Canonical.Tree
import Codegen.Target.Basic

/-!
# Compiling a function

A function is a body and perhaps a result, over a frame. Its tree is brought to canonical form, its
blocks are arranged, instructions are selected between the begin and the end that the target gives
it, registers are allocated, and the frame is set up.
-/

namespace Codegen

/-- A function to compile. An absent body does nothing, and without a result none is returned. -/
structure Function where
  /-- The number of its frame. -/
  frame : Nat
  body : Stmt := .missing
  result : Expr := .missing
deriving Inhabited

/-- What compilation works on. -/
structure Bench where
  /-- Hands out registers and labels for trees. -/
  supply : Supply := {}
  /-- Hands out registers and labels for the target, if that has a supply of its own. -/
  machine : Option Supply := none
  frames : Array Frame := #[]
  log : Array Event := #[]
deriving Inhabited

namespace Bench

/-- The supply of the target. -/
def targetSupply (b : Bench) : Supply := b.machine.getD b.supply

/-- Replace the supply of the target. -/
def setTargetSupply (s : Supply) (b : Bench) : Bench :=
  if b.machine.isSome then { b with machine := some s } else { b with supply := s }

/-- Tell events. -/
def tell (events : Array Event) : Pass Bench Unit :=
  modify fun b => { b with log := b.log ++ events }

/-- The frame with the given number. -/
def frame (i : Nat) : Pass Bench Frame := do Pass.orTrap (← get).frames[i]?

/-- Run a change of the supply for trees. -/
def onSupply {α : Type} (x : Pass Supply α) : Pass Bench α :=
  Pass.zoom (·.supply) (fun supply b => { b with supply }) x

/-- Run a change of the supply of the target. -/
def onTarget {α : Type} (f : Supply → α × Supply) : Pass Bench α :=
  Pass.zoom (·.targetSupply) (fun s b => b.setTargetSupply s) (Pass.step f)

/-- The canonical form of a statement, and the warnings that came up. -/
def canonical (s : Stmt) : Pass Bench (Stmt × List Canonical.Warning) :=
  Pass.zoom (fun b => { supply := b.supply }) (fun st b => { b with supply := st.supply }) do
    let s ← Canonical.stmt s
    return (s, (← get).warnings)

/-- Select code, beginning with none. -/
def selecting {α : Type} (x : Selection.Run α) : Pass Bench α :=
  Pass.zoom (fun b => { supply := b.supply, log := b.log })
    (fun st b => { b with supply := st.supply, log := st.log }) x

/-- Allocate registers over the frame with the given number. -/
def allocating {α : Type} (i : Nat) (x : Allocation.Run α) : Pass Bench α :=
  Pass.zoom (fun b => { supply := b.targetSupply, frame := b.frames[i]?, log := b.log })
    (fun st b =>
      let b := { b.setTargetSupply st.supply with log := st.log }
      { b with frames := st.frame.elim b.frames (b.frames.setIfInBounds i) }) x

end Bench

/-- A compiled function. -/
structure CompiledFunction where
  /-- The number of its frame. -/
  frame : Nat
  label : Label
  code : Code
  map : RegMap
  alloc : Allocation.Result
  warnings : List Canonical.Warning
deriving Inhabited

namespace Function

/-- The statement to compile for a body, and the register that its result goes to. -/
def tree (fn : Function) : Pass Bench (Stmt × Option Reg) := do
  let body := if fn.body.isPresent then fn.body else .seq []
  if fn.result.isPresent then
    let r ← Bench.onSupply (Pass.step Supply.freshReg)
    return (.seq [body, .move (.temp (some r)) fn.result], some r)
  else return (body, none)

/-- Select the code of a function from its arranged body, between the begin and the end that the
target gives it. -/
def select (t : Target) (begin : Code) (saved : List (Option Reg)) (body : Stmt)
    (result : Option Reg) : Selection.Run Code := do
  Selection.emit begin
  Pass.within .select (Selection.selectStmt t.kit body)
  if result.isSome then
    Pass.within .selectResult
      (Selection.selectStmt t.kit (.move (.temp t.catalog.result) (.temp result)))
  Selection.emit (t.epilogue saved result.isSome)
  Selection.take

/-- The map of the function: a frame pointer of its own stands for that of the target. -/
def mapFramePointer (t : Target) (f : Frame) (m : RegMap) : Pass Bench RegMap :=
  if f.fp = some t.fp then pure m
  else do
    let fp ← Pass.orTrap f.fp
    return m.assign fp (some t.fp)

/-- The first half of compilation: the frame of a function, the code that is selected for it, and the
warnings that came up. -/
def selected (t : Target) (fn : Function) : Pass Bench (Frame × Code × List Canonical.Warning) := do
  let f ← Bench.frame fn.frame
  let (body, result) ← fn.tree
  let (body, warnings) ← Pass.within .canonicalize (Bench.canonical body)
  let body ← Pass.within .arrange (Bench.onSupply (Block.arrangeStmt body))
  Bench.tell (warnings.map fun w => .warning w.pos w.message).toArray
  Bench.tell #[.canonical body]
  let (begin, saved) ← Bench.onTarget fun s =>
    let (begin, saved, s) := t.prologue f s
    ((begin, saved), s)
  let code ← Bench.selecting (select t begin saved body result)
  return (f, code, warnings)

/-- The second half of compilation: registers are allocated, and the frame is set up. -/
def allocated (t : Target) (cfg : Allocation.Config) (fn : Function) (f : Frame) (code : Code)
    (warnings : List Canonical.Warning) : Pass Bench CompiledFunction := do
  Bench.tell #[.selected code]
  let alloc ← Pass.within .allocate
    (Bench.allocating fn.frame (allocate t.catalog t.dialect.spillCode cfg code))
  let map ← mapFramePointer t f alloc.map
  let f ← Bench.frame fn.frame
  let code := t.finish f alloc.code
  Bench.tell #[.compiled code.length f.size alloc.rounds alloc.spilled.length]
  return { frame := fn.frame, label := f.label, code, map, alloc, warnings }

/-- Compile a function. -/
def compile (t : Target) (cfg : Allocation.Config) (fn : Function) :
    Pass Bench CompiledFunction := do
  let (f, code, warnings) ← fn.selected t
  fn.allocated t cfg f code warnings

end Function

end Codegen
