import Codegen.Tree.Basic

/-!
# Printed trees

Trees as parenthesised text, one line each. An absent node prints as `nil`, an absent register or
label as an underscore, and a call shows its link only if it has one. `kindName` is the name of a
node's kind in messages.
-/

namespace Codegen

/-- A word in decimal. -/
def wordText (x : Int64) : String := toString x.toInt

mutual

/-- The text of an expression. -/
def Expr.text : Expr → String
  | .missing => "nil"
  | .int v => wordText v
  | .addr l => Label.render l
  | .temp r => Reg.render r
  | .bin op l r _ => "(" ++ op.symbol ++ " " ++ l.text ++ " " ++ r.text ++ ")"
  | .mem a => "(mem " ++ a.text ++ ")"
  | .call f args .missing => "(call " ++ f.text ++ Expr.texts args ++ ")"
  | .call f args link => "(call " ++ f.text ++ Expr.texts args ++ " :fp " ++ link.text ++ ")"
  | .eseq s v => "(eseq " ++ s.text ++ " " ++ v.text ++ ")"

/-- The texts of expressions, each after a blank. -/
def Expr.texts : List Expr → String
  | [] => ""
  | e :: rest => " " ++ e.text ++ Expr.texts rest

/-- The text of a statement. -/
def Stmt.text : Stmt → String
  | .missing => "nil"
  | .move d s => "(move " ++ d.text ++ " " ++ s.text ++ ")"
  | .eval e => "(exp " ++ e.text ++ ")"
  | .jump d _ => "(jump " ++ d.text ++ ")"
  | .cjump c l r t f =>
    "(cjump " ++ c.symbol ++ " " ++ l.text ++ " " ++ r.text ++ " " ++ Label.render t ++ " "
      ++ Label.render f ++ ")"
  | .seq list => "(seq" ++ Stmt.texts list ++ ")"
  | .place l => "(label " ++ Label.render l ++ ")"

/-- The texts of statements, each after a blank. -/
def Stmt.texts : List Stmt → String
  | [] => ""
  | s :: rest => " " ++ s.text ++ Stmt.texts rest

end

/-- The text of a node. -/
def Node.text : Node → String
  | .expr e => e.text
  | .stmt s => s.text

/-- The name of an expression's kind. -/
def Expr.kindName : Expr → String
  | .missing => "<nil>"
  | .int _ => "*ir.Int"
  | .addr _ => "*ir.Addr"
  | .temp _ => "*ir.Temp"
  | .bin .. => "*ir.BinOp"
  | .mem _ => "*ir.Mem"
  | .call .. => "*ir.Call"
  | .eseq .. => "*ir.ESeq"

/-- The name of a statement's kind. -/
def Stmt.kindName : Stmt → String
  | .missing => "<nil>"
  | .move .. => "*ir.Move"
  | .eval _ => "*ir.ExpStmt"
  | .jump .. => "*ir.Jump"
  | .cjump .. => "*ir.CJump"
  | .seq _ => "*ir.Seq"
  | .place _ => "*ir.Place"

/-- The name of a node's kind. -/
def Node.kindName : Node → String
  | .expr e => e.kindName
  | .stmt s => s.kindName

end Codegen
