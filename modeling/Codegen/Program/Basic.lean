import Codegen.Program.Data
import Codegen.Program.Function

/-!
# Compiling a program

A program is an entry function, other functions and the static data of its supply. The entry
function comes first; one without a result exits with zero.
-/

namespace Codegen

/-- A program to compile. -/
structure Program where
  /-- The pool of the supply it was built in, if it says. -/
  pool : Option Nat
  functions : Array Function
  /-- The functions to compile, by their numbers; the entry function is not compiled again. -/
  funcs : List Nat
  /-- The number of the entry function. -/
  entry : Option Nat
deriving Inhabited

/-- A compiled program. -/
structure CompiledProgram where
  target : String
  entry : Code
  funcs : List CompiledFunction
  data : Code
deriving Inhabited

namespace CompiledProgram

/-- The listing of functions, each after an empty line. -/
def renderFuncs : List CompiledFunction → Option String
  | [] => some ""
  | f :: rest => do
    let text ← Code.render f.map f.code
    let tail ← renderFuncs rest
    return "\n" ++ text ++ tail

/-- The listing of the program. -/
def render (p : CompiledProgram) : Option String := do
  let entry ← Code.render .empty p.entry
  let funcs ← renderFuncs p.funcs
  let data ← Code.render .empty p.data
  return entry ++ funcs ++ (if p.data.isEmpty then "" else "\n" ++ data)

end CompiledProgram

namespace Program

/-- Compile a function; `place` says where it belongs, given its label. -/
def compileFunction (t : Target) (cfg : Allocation.Config) (place : Option Label → Context)
    (fn : Function) : Pass Bench CompiledFunction := do
  let f ← Bench.frame fn.frame
  Pass.within (place (some f.label)) (fn.compile t cfg)

/-- Compile the functions with the given numbers, apart from the entry function. -/
def compileOthers (t : Target) (cfg : Allocation.Config) (p : Program) (entry : Nat) :
    List Nat → Pass Bench (List CompiledFunction)
  | [] => pure []
  | i :: rest => do
    if i = entry then compileOthers t cfg p entry rest
    else
      let fn ← Pass.orTrap p.functions[i]?
      let f ← compileFunction t cfg .function fn
      let fs ← compileOthers t cfg p entry rest
      return f :: fs

/-- An entry function always has a result. -/
def exiting (fn : Function) : Function :=
  if fn.result.isPresent then fn else { fn with result := .int 0 }

/-- Compile a program, which must not have been built elsewhere. -/
def compile (t : Target) (cfg : Allocation.Config) (p : Program) : Pass Bench CompiledProgram := do
  if p.pool.any (· ≠ (← get).supply.pool) then Pass.fail .foreignSupply
  match p.entry with
  | none => Pass.fail .noEntry
  | some entry =>
    let fn ← exiting <$> Pass.orTrap p.functions[entry]?
    let f ← Bench.frame fn.frame
    let start ← Bench.onTarget (t.entry (some f.label))
    let first ← compileFunction t cfg .entry fn
    let others ← compileOthers t cfg p entry p.funcs
    return {
      target := t.name
      entry := start
      funcs := first :: others
      data := dataCode t.dialect.dataSection (← get).supply.blobs }

/-- Compile a program that says where it was built. -/
def build (t : Target) (cfg : Allocation.Config) (p : Program) : Pass Bench CompiledProgram := do
  if p.pool.isNone then Pass.fail .noSupply
  Pass.within .program (p.compile t cfg)

end Program

end Codegen
