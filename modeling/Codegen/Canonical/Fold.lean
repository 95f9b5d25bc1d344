import Codegen.Tree.Basic

/-!
# Folding

Simplification of one operator application whose operands are already simplified: constants are
computed, neutral operands dropped, and the heavier operand of a commutative operator is put first.
A division by the constant zero stays as it is.
-/

namespace Codegen

namespace Expr

/-- Whether the expression is the given constant. -/
def isInt (v : Int64) : Expr → Bool
  | int x => x == v
  | _ => false

/-- An expression that needs no operator: a constant, a register or a memory access. -/
def isSimple : Expr → Bool
  | int _ | addr _ | temp _ | mem _ => true
  | _ => false

/-- An operator application. -/
def isBin : Expr → Bool
  | bin .. => true
  | _ => false

/-- Whether the application is a division by the constant zero. -/
def dividesByZero (op : Op) (right : Expr) : Bool :=
  match op with
  | .div => right.isInt 0
  | _ => false

/-- The operand that is left when the other one is neutral. -/
def dropNeutral (op : Op) (l r : Expr) : Option Expr :=
  match op with
  | .add => if l.isInt 0 then some r else if r.isInt 0 then some l else none
  | .sub => if r.isInt 0 then some l else none
  | .mul => if l.isInt 1 then some r else if r.isInt 1 then some l else none
  | .div => if r.isInt 1 then some l else none
  | _ => none

/-- The simplified form of `l op r` when at most one operand is a constant word. -/
def foldOperands (op : Op) (l r : Expr) (pos : Int) : Expr :=
  match dropNeutral op l r with
  | some e => e
  | none =>
    if op.isCommutative && l.isSimple && r.isBin then bin op r l pos else bin op l r pos

/-- The simplified form of `l op r`. -/
def fold (op : Op) (l r : Expr) (pos : Int) : Expr :=
  if dividesByZero op r then bin op l r pos
  else
    match l, r with
    | int x, int y =>
      match op.eval x y with
      | some v => int v
      | none => bin op l r pos
    | _, _ => foldOperands op l r pos

end Expr

end Codegen
