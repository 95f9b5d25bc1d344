import Codegen.Block.Trace

/-!
# Layout

Ordered blocks written out as one list of statements. A jump to the block that comes next is left
out, and every conditional jump is followed by the place of its false label: by turning the
condition round, or through a fresh label with a jump behind it.
-/

namespace Codegen.Block

/-- The statements by which a block is left when the block labelled `next` follows. -/
def exitStmts (next : Option Label) : Exit → Pass Supply (List Stmt)
  | .jump d targets =>
    match d with
    | .addr l => pure (if l = next then [] else [.jump d targets])
    | _ => pure [.jump d targets]
  | .branch c l r t f => do
    if next = f then return [.cjump c l r t f]
    else if next = t then
      let c ← Pass.orTrap c.inverse?
      return [.cjump c l r f t]
    else
      let fresh ← freshLabel
      return [.cjump c l r t (some fresh), .place (some fresh), .goto f]

/-- Ordered blocks written out; `exit` follows the last one. -/
def layout (exit : Option Label) : List Block → Pass Supply (List Stmt)
  | [] => pure [.place exit]
  | b :: rest => do
    let next := (rest.head?.map (·.label)).getD exit
    let leave ← exitStmts next b.exit
    let rest ← layout exit rest
    return .place b.label :: b.body ++ leave ++ rest

/-- The statement cut into blocks, put in the order of traces and written out, with a fresh label
placed at its end. -/
def arrangeStmt (s : Stmt) : Pass Supply Stmt := do
  let exit ← freshLabel
  let blocks ← ofStmt (some exit) s
  let list ← layout (some exit) (arrange blocks)
  return .seq list

end Codegen.Block
