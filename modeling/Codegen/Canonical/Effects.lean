import Codegen.Tree.Basic

/-!
# Effects

What a statement may change: a set of registers, and whether memory counts among it. An expression
commutes with a statement if it yields the same value before and after it.
-/

namespace Codegen

/-- A summary of what may be changed. -/
structure Effects where
  /-- Registers that may be written. -/
  regs : List (Option Reg) := []
  /-- Whether memory may be written. -/
  memory : Bool := false
deriving Inhabited

namespace Effects

/-- No effect. -/
def none : Effects := {}

/-- The effects of both. -/
def also (a b : Effects) : Effects :=
  { regs := a.regs ++ b.regs, memory := a.memory || b.memory }

/-- Writing a register. -/
def writesReg (r : Option Reg) : Effects := { regs := [r] }

/-- Writing memory. -/
def writesMemory : Effects := { memory := true }

/-- Whether an expression without statements yields the same value before and after the effects. -/
def commutes (eff : Effects) : Expr → Bool
  | .int _ | .addr _ => true
  | .temp r => !eff.regs.contains r
  | .bin _ l r _ => eff.commutes l && eff.commutes r
  | .mem a => !eff.memory && eff.commutes a
  | .missing | .call .. | .eseq .. => false

end Effects

mutual

/-- The effects of evaluating an expression. A call may write memory. -/
def Expr.effects : Expr → Effects
  | .missing | .int _ | .addr _ | .temp _ => .none
  | .bin _ l r _ => l.effects.also r.effects
  | .mem a => a.effects
  | .call f args link =>
    (Effects.writesMemory.also f.effects).also ((Expr.effectsOf args).also link.effects)
  | .eseq s v => s.effects.also v.effects

/-- The effects of evaluating several expressions. -/
def Expr.effectsOf : List Expr → Effects
  | [] => .none
  | e :: rest => e.effects.also (Expr.effectsOf rest)

/-- The effects of a statement. -/
def Stmt.effects : Stmt → Effects
  | .missing | .place _ => .none
  | .move (.temp r) s => (Effects.writesReg r).also s.effects
  | .move (.mem a) s => (Effects.writesMemory.also a.effects).also s.effects
  | .move d s => d.effects.also s.effects
  | .eval e => e.effects
  | .jump d _ => d.effects
  | .cjump _ l r _ _ => l.effects.also r.effects
  | .seq list => Stmt.effectsOf list

/-- The effects of several statements. -/
def Stmt.effectsOf : List Stmt → Effects
  | [] => .none
  | s :: rest => s.effects.also (Stmt.effectsOf rest)

end

end Codegen
