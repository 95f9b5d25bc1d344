import Codegen.Error

/-!
# Basic blocks

A list of statements cut into blocks: each begins with a label, runs straight through its body and
leaves by one jump. Control that would run into a placed label jumps to it, control that would run
off the end jumps to an exit label, and a block without a label gets a fresh one.
-/

namespace Codegen

mutual

/-- The statements of a statement without its sequences. -/
def Stmt.flatten : Stmt → List Stmt
  | .seq list => Stmt.flattenAll list
  | s => [s]

/-- The statements of several statements without their sequences. -/
def Stmt.flattenAll : List Stmt → List Stmt
  | [] => []
  | s :: rest => s.flatten ++ Stmt.flattenAll rest

end

/-- How a block is left. -/
inductive Exit
  | jump (dst : Expr) (targets : List (Option Label))
  | branch (cond : Cond) (left right : Expr) (onTrue onFalse : Option Label)

/-- A jump to one label. -/
def Exit.goto (l : Option Label) : Exit := .jump (.addr l) [l]

/-- The jump that a statement is, if it is one. -/
def Stmt.exit? : Stmt → Option Exit
  | .jump d ts => some (.jump d ts)
  | .cjump c l r t f => some (.branch c l r t f)
  | _ => none

/-- A basic block. -/
structure Block where
  label : Option Label
  body : List Stmt
  exit : Exit

/-- A block that is still being filled. -/
structure OpenBlock where
  label : Option Label
  body : List Stmt := []

/-- The block that leaves by the given jump. -/
def OpenBlock.close (b : OpenBlock) (exit : Exit) : Block := ⟨b.label, b.body, exit⟩

namespace Block

/-- A fresh label. -/
def freshLabel : Pass Supply Label := Pass.step Supply.freshLabel

/-- The blocks of the rest of a list of statements, `cur` being the block that is being filled.
Control that reaches the end jumps to `exit`. -/
def cut (exit : Option Label) : Option OpenBlock → List Stmt → Pass Supply (List Block)
  | none, [] => pure []
  | some b, [] => pure [b.close (.goto exit)]
  | _, .missing :: _ => Pass.fail (.malformed .absentStmt)
  | cur, .place l :: rest => do
    let blocks ← cut exit (some { label := l }) rest
    return (cur.map fun b => b.close (.goto l)).toList ++ blocks
  | cur, s :: rest => do
    let b ← match cur with
      | some b => pure b
      | none => (fun l => { label := some l }) <$> freshLabel
    match s.exit? with
    | some e => do
      let blocks ← cut exit none rest
      return b.close e :: blocks
    | none => cut exit (some { b with body := b.body ++ [s] }) rest

/-- The blocks of a statement; if it does nothing, one block that only leaves. -/
def ofStmt (exit : Option Label) (s : Stmt) : Pass Supply (List Block) := do
  match ← cut exit none s.flatten with
  | [] =>
    let l ← freshLabel
    return [⟨some l, [], .goto exit⟩]
  | blocks => return blocks

/-- The label that control is taken to go to after a block: that of a condition that holds, or the
first target. -/
def successor (b : Block) : Option Label :=
  match b.exit with
  | .branch _ _ _ t _ => t
  | .jump _ (l :: _) => l
  | .jump _ [] => none

end Block

end Codegen
