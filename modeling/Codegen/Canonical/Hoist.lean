import Codegen.Canonical.Effects

/-!
# Hoisting

A hoisted expression is a value together with the statements that have to run before it. When
several operands are evaluated from left to right, the statements of all of them are put in front;
an earlier operand whose value a later statement may change is saved in a fresh register first.
-/

namespace Codegen

/-- A value and the statements to run before it. -/
structure Hoisted where
  pre : List Stmt
  value : Expr
deriving Inhabited

/-- One statement made of several: none or many of them in a sequence, a single one as it is. -/
def Stmt.ofList : List Stmt → Stmt
  | [s] => s
  | list => .seq list

/-- The expression that runs the statements and yields the value. -/
def Hoisted.toExpr (h : Hoisted) : Expr :=
  if h.pre.isEmpty then h.value else .eseq (.ofList h.pre) h.value

/-- An operand already evaluated, and whether its value is kept in a fresh register. -/
structure Operand where
  value : Expr
  saved : Bool := false
deriving Inhabited

/-- Save every operand that the effects may change: the moves that do so, the operands after it. -/
def saveClashing (eff : Effects) : List Operand → Supply → List Stmt × List Operand × Supply
  | [], s => ([], [], s)
  | o :: rest, s =>
    if o.saved || eff.commutes o.value then
      let (moves, os, s) := saveClashing eff rest s
      (moves, o :: os, s)
    else
      let (r, s) := s.freshReg
      let (moves, os, s) := saveClashing eff rest s
      (.move (.temp (some r)) o.value :: moves, { value := .temp (some r), saved := true } :: os, s)

/-- Put the statements of further operands behind `pre`, with `done` the operands before them. -/
def hoistAfter (pre : List Stmt) (done : List Operand) :
    List Hoisted → Supply → List Stmt × List Operand × Supply
  | [], s => (pre, done, s)
  | h :: rest, s =>
    if h.pre.isEmpty then hoistAfter pre (done ++ [{ value := h.value }]) rest s
    else
      let (moves, done, s) := saveClashing (Stmt.effectsOf h.pre) done s
      hoistAfter (pre ++ moves ++ h.pre) (done ++ [{ value := h.value }]) rest s

/-- Hoist the statements of operands evaluated from left to right: the statements, and the values
that the operands have after them. -/
def hoistAll (ops : List Hoisted) (s : Supply) : List Stmt × List Expr × Supply :=
  let (pre, done, s) := hoistAfter [] [] ops s
  (pre, done.map (·.value), s)

end Codegen
