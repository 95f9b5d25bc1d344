import Codegen.Catalog
import Codegen.Coloring.Assign
import Codegen.Spill

/-!
# Allocation

Every register of some code gets a machine register. If the coloring leaves registers without one,
they are moved to slots of the frame and the whole analysis is repeated on the changed code, for a
limited number of rounds. Registers made for a spill are not spilled again.
-/

namespace Codegen

namespace Allocation

/-- Limits of an allocation; what is not positive stands for the default. -/
structure Config where
  /-- How many machine registers to use, all of them by default. -/
  colors : Int := 0
  /-- How many rounds to try, sixteen by default. -/
  maxRounds : Int := 0
deriving DecidableEq, Repr, Inhabited

/-- The rounds that are tried by default. -/
def defaultRounds : Nat := 16

/-- The rounds that are tried. -/
def Config.rounds (cfg : Config) : Nat :=
  if cfg.maxRounds ≤ 0 then defaultRounds else cfg.maxRounds.toNat

/-- The number of colors when there are `n` registers. -/
def Config.colorCount (cfg : Config) (n : Nat) : Nat :=
  if cfg.colors ≤ 0 || (n : Int) < cfg.colors then n else cfg.colors.toNat

/-- Code with a machine register for each of its registers. -/
structure Result where
  code : Code
  map : RegMap
  rounds : Nat
  spilled : List (Option Reg)
  /-- Groups of registers that were merged, the one that stands for the others first. -/
  coalesced : List (List (Option Reg))
deriving Inhabited

/-- What allocation works on. -/
structure State where
  supply : Supply := {}
  frame : Option Frame := none
  log : Array Event := #[]
deriving Inhabited

/-- A step of allocation. -/
abbrev Run := Pass State

/-- Tell events. -/
def tell (events : Array Event) : Run Unit := modify fun st => { st with log := st.log ++ events }

/-- Give the machine registers that occur in the code their colors. -/
def precolorAll (cat : Catalog) (c : Coloring) : Coloring :=
  cat.regs.zipIdx.foldl
    (fun c (r, color) =>
      match c.live.index? r with
      | some n => c.precolor n color
      | none => c) c

/-- Refuse machine registers that can not be allocated. -/
def checkMachine (cat : Catalog) (c : Coloring) : List Nat → Run Unit
  | [] => pure ()
  | n :: rest =>
    if c.isMachine n then checkMachine cat c rest
    else
      match c.live.reg n with
      | none => Pass.trap
      | some r =>
        if cat.isMachine r then Pass.fail (.notAllocatable (some r)) else checkMachine cat c rest

/-- Mark the registers that were made for spills. -/
def markTemporaries (temps : List (Option Reg)) (c : Coloring) : Coloring :=
  { c with
    temporaries := (List.range c.size).foldl
      (fun s n => if temps.contains (c.live.reg n) then s.insert n else s) c.temporaries }

/-- The map from the registers of the code to machine registers. -/
def regMap (cat : Catalog) (c : Coloring) : List Nat → RegMap → Run RegMap
  | [], m => pure m
  | n :: rest, m =>
    match c.colorOf n, c.live.reg n with
    | none, _ => regMap cat c rest m
    | some _, none => Pass.trap
    | some color, some r => regMap cat c rest (m.assign r (cat.regs.getD color none))

/-- Move registers, by their numbers, to slots of the frame. -/
def spillAll (sc : SpillCode) (l : Liveness) : List Nat → Code → Run Code
  | [], code => pure code
  | n :: rest, code => do
    tell #[.spill (l.reg n) (l.count.getD n 0)]
    match (← get).frame with
    | none => Pass.trap
    | some f =>
      let code ← Pass.step fun st =>
        let (code, f, supply) := Code.spill sc f code (l.reg n) st.supply
        (code, { st with frame := some f, supply })
      spillAll sc l rest code

/-- The registers of the code that were not there before, apart from the frame pointer. -/
def newRegs (l : Liveness) (fp : Option Reg) (code : Code) : List (Option Reg) :=
  (Code.regs code).filter fun r => !l.regs.contains r && r ≠ fp

/-- Color the code, given the registers that were made for spills. -/
def color (cat : Catalog) (k : Nat) (fp : Option Reg) (temps : List (Option Reg)) (code : Code) :
    Run Coloring := do
  match Flow.ofCode code with
  | .error e => Pass.fail (.within .flowGraph e)
  | .ok g =>
    let c := precolorAll cat (.start (.ofFlow g code fp) k)
    checkMachine cat c (List.range c.size)
    let (c, log) := (markTemporaries temps c).run
    tell log
    match c.clash? with
    | some e => Pass.fail e
    | none => return c

/-- What a round works on. -/
structure Round where
  /-- The registers that were made for spills. -/
  temps : List (Option Reg) := []
  /-- The registers that were spilled. -/
  spilled : List (Option Reg) := []
  code : Code

/-- What the next round works on, after the nodes `chosen` of this one were spilled. -/
def Round.after (x : Round) (fp : Option Reg) (l : Liveness) (chosen : List Nat) (code : Code) :
    Round :=
  { temps := x.temps ++ newRegs l fp code, spilled := x.spilled ++ chosen.map l.reg, code }

/-- The first half of round `n`: the code is colored, and the nodes to spill are chosen. -/
def attempt (cat : Catalog) (k : Nat) (fp : Option Reg) (n : Nat) (x : Round) :
    Run (Coloring × List Nat) := do
  let c ← color cat k fp x.temps x.code
  let failed := c.nodes.list .spilled
  tell #[.round n c.size k failed.length (c.nodes.list .coalesced).length]
  match failed with
  | [] => return (c, [])
  | first :: _ =>
    match failed.filter fun n => !c.temporaries.contains n with
    | [] => Pass.fail (.temporaryStuck (c.live.reg first) k)
    | chosen => return (c, chosen)

/-- Rounds of coloring and spilling: `left` is how many may still be tried, of `total`. In the second
half of a round the result is read off, or the chosen nodes are spilled and the other rounds follow. -/
def rounds (cat : Catalog) (sc : SpillCode) (k : Nat) (fp : Option Reg) (total : Nat) :
    (left : Nat) → Round → Run Result
  | 0, _ => Pass.fail (.roundsSpent total)
  | left + 1, x => do
    let (c, chosen) ← attempt cat k fp (total - left) x
    if chosen = [] then
      let map ← regMap cat c (List.range c.size) .empty
      return { code := x.code, map, rounds := total - left, spilled := x.spilled, coalesced := c.groups }
    else
      let code ← spillAll sc c.live chosen x.code
      rounds cat sc k fp total left (x.after fp c.live chosen code)

end Allocation

/-- Assign a machine register of the catalog to every register of the code; what does not fit is
moved to the frame. -/
def allocate (cat : Catalog) (sc : SpillCode) (cfg : Allocation.Config) (code : Code) :
    Allocation.Run Allocation.Result := do
  let fp := (← get).frame.bind (·.fp)
  let k := cfg.colorCount cat.regs.length
  if k = 0 then Pass.fail (.noRegisters cat.name)
  else Allocation.rounds cat sc k fp cfg.rounds cfg.rounds { code }

end Codegen
