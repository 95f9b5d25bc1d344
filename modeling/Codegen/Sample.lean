import Codegen.Program.Basic
import Codegen.Target.Named

/-!
# Samples

Small programs that show what the compiler can do, built for a target.
-/

namespace Codegen

/-- A step of building a program. -/
abbrev Building := StateM Bench

/-- A program that can be built for any target. -/
structure Sample where
  name : String
  doc : String
  build : Target → Building Program

namespace Building

/-- A fresh register as an expression. -/
def temp : Building Expr := fun b =>
  let (r, supply) := b.supply.freshReg
  (.temp (some r), { b with supply })

/-- A fresh label. -/
def label : Building (Option Label) := fun b =>
  let (l, supply) := b.supply.freshLabel
  (some l, { b with supply })

/-- A new frame with its number. -/
def frame (t : Target) (name : String) (params : Nat) (nested : Bool) :
    Building (Nat × Frame) := fun b =>
  let (f, s) := t.newFrame name params nested b.targetSupply
  ((b.frames.size, f), { b.setTargetSupply s with frames := b.frames.push f })

/-- A slot of the frame with the given number. -/
def slot (i : Nat) : Building Int64 := fun b =>
  match b.frames[i]? with
  | none => (0, b)
  | some f =>
    let (off, f) := f.allocSlot
    (off, { b with frames := b.frames.setIfInBounds i f })

/-- Static data. -/
def blob (data : List UInt8) : Building (Option Label) := fun b =>
  let (l, supply) := b.supply.addBlob data
  (some l, { b with supply, log := b.log.push (.blobAdded l data.length) })

/-- The program of some functions and an entry function. -/
def program (funcs : List Function) (entry : Function) : Building Program := fun b =>
  ({ pool := some b.supply.pool
     functions := (funcs ++ [entry]).toArray
     funcs := List.range funcs.length
     entry := some funcs.length }, b)

/-- The program of some functions whose entry function only has a result. -/
def withMain (t : Target) (result : Expr) (funcs : List Function) : Building Program := do
  let (i, _) ← frame t "main" 0 false
  program funcs { frame := i, result }

end Building

namespace Sample

open Building

/-- A parameter of a function. -/
def param (f : Frame) (i : Nat) : Expr := (f.params.getD i (.offset 0)).expr f.fp

/-- A call of a function. -/
def callOf (f : Frame) (args : List Expr) (link : Expr) : Expr :=
  .call (.addr (some f.label)) args link

/-- An operator applied to two operands. -/
def bin (op : Op) (l r : Expr) : Expr := .bin op l r 0

/-- The Fibonacci numbers by recursion. -/
def fib (t : Target) : Building Program := do
  let (i, f) ← frame t "fib" 1 false
  let n := param f 0
  let res ← temp
  let small ← label
  let big ← label
  let fin ← label
  let again (d : Int64) := callOf f [bin .sub n (.int d)] .missing
  withMain t (callOf f [.int 10] .missing)
    [{ frame := i
       body := .seq [
         .cjump .lt n (.int 2) small big,
         .place small,
         .move res n,
         .goto fin,
         .place big,
         .move res (bin .add (again 1) (again 2)),
         .place fin]
       result := res }]

/-- A sum in a loop. -/
def loop (t : Target) : Building Program := do
  let (i, f) ← frame t "sum" 1 false
  let n := param f 0
  let count ← temp
  let sum ← temp
  let test ← label
  let body ← label
  let done ← label
  withMain t (callOf f [.int 100] .missing)
    [{ frame := i
       body := .seq [
         .move sum (.int 0),
         .move count (.int 1),
         .place test,
         .cjump .gt count n done body,
         .place body,
         .move sum (bin .add sum count),
         .move count (bin .add count (.int 1)),
         .goto test,
         .place done]
       result := sum }]

/-- A function that keeps three times its argument in its frame, where a nested function finds it. -/
def nested (t : Target) : Building Program := do
  let (o, outer) ← frame t "outer" 1 false
  let off ← slot o
  let (i, inner) ← frame t "inner" 1 true
  let link := (inner.parent.getD (.offset 0)).expr inner.fp
  withMain t (callOf outer [.int 5] .missing)
    [{ frame := o
       body := .move (Loc.expr outer.fp (.offset off)) (bin .mul (param outer 0) (.int 3))
       result := callOf inner [.int 4] (.temp outer.fp) },
     { frame := i
       result := bin .add (.mem (bin .add link (.int off))) (param inner 0) }]

/-- More arguments than there are registers for. -/
def args (t : Target) : Building Program := do
  let (i, f) ← frame t "weighted" 10 false
  let sum := (List.range 9).foldl
    (fun sum j => bin .add sum (bin .mul (param f (j + 1)) (.int (Int64.ofNat (j + 2)))))
    (param f 0)
  withMain t (callOf f ((List.range 10).map fun j => .int (Int64.ofNat j)) .missing)
    [{ frame := i, result := sum }]

/-- A division by zero. -/
def divzero (t : Target) : Building Program :=
  withMain t (.bin .div (.int 7) (.int 0) 42) []

/-- New registers, as many as asked for. -/
def temps : Nat → Building (List Expr)
  | 0 => pure []
  | n + 1 => do
    let v ← temp
    let rest ← temps n
    return v :: rest

/-- Many values that are live at once. -/
def pressure (t : Target) : Building Program := do
  let (i, _) ← frame t "main" 0 false
  let vs ← temps 12
  let body := vs.zipIdx.map fun (v, j) => .move v (.int (Int64.ofNat (j + 1)))
  let sum := (vs.zip vs.reverse).foldl (fun sum (a, b) => bin .add sum (bin .mul a b)) (.int 0)
  program [] { frame := i, body := .seq body, result := sum }

/-- A load from static data. -/
def blob (t : Target) : Building Program := do
  let l ← Building.blob ("hello, world\n\x00".toUTF8.data.toList)
  withMain t (bin .and (.mem (.addr l)) (.int 0xff)) []

/-- A call through a register. -/
def indirect (t : Target) : Building Program := do
  let (i, f) ← frame t "square" 1 false
  let x := param f 0
  let (j, _) ← frame t "main" 0 false
  let p ← temp
  program [{ frame := i, result := bin .mul x x }]
    { frame := j, body := .move p (.addr (some f.label)), result := .call p [.int 9] .missing }

/-- All samples. -/
def all : List Sample := [
  ⟨"fib", "recursive fibonacci of 10", fib⟩,
  ⟨"loop", "sum of 1..100 in a loop", loop⟩,
  ⟨"nested", "nested function reading the parent frame through the static link", nested⟩,
  ⟨"args", "call with ten arguments, some passed on the stack", args⟩,
  ⟨"divzero", "division by constant zero, reported and kept", divzero⟩,
  ⟨"pressure", "twelve values live at once", pressure⟩,
  ⟨"blob", "load from static data", blob⟩,
  ⟨"indirect", "call through a register", indirect⟩]

/-- The sample with the given name. -/
def find? (name : String) : Option Sample := all.find? (·.name == name)

/-- Compile the sample with the given name for the target with the given name. -/
def compile (arch name : String) (cfg : Allocation.Config) : Pass Bench CompiledProgram := do
  match find? name with
  | none => Pass.fail (.unknownSample name)
  | some s =>
    let b ← get
    match Target.ofName arch b.supply with
    | .error e => Pass.fail e
    | .ok (t, supply) =>
      set { b with supply }
      Bench.tell #[.sample s.name arch]
      let p ← Pass.step (s.build t)
      p.build t cfg

end Sample

end Codegen
