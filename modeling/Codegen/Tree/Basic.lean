import Codegen.Operator
import Codegen.Register

/-!
# Trees

The tree language that is compiled: expressions that yield a word and statements that act. Either
may be absent where one was expected; `missing` stands for that.
-/

namespace Codegen

mutual

/-- An expression. -/
inductive Expr
  /-- No expression. As the link of a call it means that none is passed. -/
  | missing
  /-- A constant word. -/
  | int (value : Int64)
  /-- The address of a label. -/
  | addr (label : Option Label)
  /-- The value of a register. -/
  | temp (reg : Option Reg)
  /-- An operator applied to two operands; `pos` is a source position for warnings. -/
  | bin (op : Op) (left right : Expr) (pos : Int)
  /-- The word in memory at an address. -/
  | mem (address : Expr)
  /-- A call; `link` is the frame pointer of the callee's parent, if it takes one. -/
  | call (callee : Expr) (args : List Expr) (link : Expr)
  /-- Run a statement and then yield a value. -/
  | eseq (first : Stmt) (value : Expr)

/-- A statement. -/
inductive Stmt
  /-- No statement. -/
  | missing
  /-- Store a value in a register or in memory. -/
  | move (dst src : Expr)
  /-- Evaluate for effect only. -/
  | eval (expr : Expr)
  /-- Jump to an address, which is one of the targets. -/
  | jump (dst : Expr) (targets : List (Option Label))
  /-- Compare and jump to one of two labels. -/
  | cjump (cond : Cond) (left right : Expr) (onTrue onFalse : Option Label)
  /-- Statements one after the other. -/
  | seq (list : List Stmt)
  /-- Place a label. -/
  | place (label : Option Label)

end

instance : Inhabited Expr := ⟨.missing⟩
instance : Inhabited Stmt := ⟨.missing⟩

/-- A jump to one known label. -/
def Stmt.goto (l : Option Label) : Stmt := .jump (.addr l) [l]

/-- A constant: a word or the address of a label. -/
def Expr.isConst : Expr → Bool
  | .int _ | .addr _ => true
  | _ => false

/-- Whether there is an expression at all. -/
def Expr.isPresent : Expr → Bool
  | .missing => false
  | _ => true

/-- Whether there is a statement at all. -/
def Stmt.isPresent : Stmt → Bool
  | .missing => false
  | _ => true

/-- An expression or a statement. -/
inductive Node
  | expr (e : Expr)
  | stmt (s : Stmt)

instance : Inhabited Node := ⟨.expr .missing⟩

mutual

/-- The number of nodes of an expression. -/
def Expr.size : Expr → Nat
  | .missing | .int _ | .addr _ | .temp _ => 1
  | .bin _ l r _ => l.size + r.size + 1
  | .mem a => a.size + 1
  | .call f args link => f.size + Expr.sizes args + link.size + 1
  | .eseq s v => s.size + v.size + 1

/-- The number of nodes of a list of expressions. -/
def Expr.sizes : List Expr → Nat
  | [] => 0
  | e :: rest => e.size + Expr.sizes rest

/-- The number of nodes of a statement. -/
def Stmt.size : Stmt → Nat
  | .missing | .place _ => 1
  | .move d s => d.size + s.size + 1
  | .eval e => e.size + 1
  | .jump d _ => d.size + 1
  | .cjump _ l r _ _ => l.size + r.size + 1
  | .seq list => Stmt.sizes list + 1

/-- The number of nodes of a list of statements. -/
def Stmt.sizes : List Stmt → Nat
  | [] => 0
  | s :: rest => s.size + Stmt.sizes rest

end

/-- The number of nodes. -/
def Node.size : Node → Nat
  | .expr e => e.size
  | .stmt s => s.size

mutual

/-- The target lists of the jumps in statement position, depth first. -/
def Stmt.jumpTargets : Stmt → List (List (Option Label))
  | .jump _ ts => [ts]
  | .seq list => Stmt.jumpTargetsOf list
  | _ => []

/-- The target lists of the jumps among the statements. -/
def Stmt.jumpTargetsOf : List Stmt → List (List (Option Label))
  | [] => []
  | s :: rest => s.jumpTargets ++ Stmt.jumpTargetsOf rest

end

/-- The target lists of the jumps that are the node itself or stand in its sequences. -/
def Node.jumpTargets : Node → List (List (Option Label))
  | .expr (.eseq s _) => s.jumpTargets
  | .expr _ => []
  | .stmt s => s.jumpTargets

end Codegen
