import Codegen.Error

/-!
# Patterns

A pattern is a tree: a register in it stands for any expression, the constant zero for any constant,
another constant for itself, and a label for any label. `leafKinds` lists the places of a pattern
that a template can refer to, depth first; `checkPattern` says which trees are patterns; `head` is
the class by which nodes and patterns are sorted.
-/

namespace Codegen

/-- What stands at a leaf of a pattern. -/
inductive LeafKind
  | int | addr | temp
deriving DecidableEq, Repr

/-- The leaves of an expression pattern, depth first. Only the callee of a call counts. -/
def Expr.leafKinds : Expr → List LeafKind
  | .int _ => [.int]
  | .addr _ => [.addr]
  | .temp _ => [.temp]
  | .bin _ l r _ => l.leafKinds ++ r.leafKinds
  | .mem a => a.leafKinds
  | .call f _ _ => f.leafKinds
  | .missing | .eseq .. => []

/-- The leaves of a statement pattern. -/
def Stmt.leafKinds : Stmt → List LeafKind
  | .move d s => d.leafKinds ++ s.leafKinds
  | .jump d _ => d.leafKinds
  | .cjump _ l r _ _ => l.leafKinds ++ r.leafKinds
  | .missing | .eval _ | .seq _ | .place _ => []

/-- The leaves of a pattern. -/
def Node.leafKinds : Node → List LeafKind
  | .expr e => e.leafKinds
  | .stmt s => s.leafKinds

/-- Whether an expression is a pattern below the root. -/
def Expr.checkNested : Expr → Except TemplateFault Unit
  | .int _ | .addr _ | .temp _ => .ok ()
  | .bin op l r _ => do
    if !op.isKnown then throw (.badOp op.code)
    l.checkNested
    r.checkNested
  | .mem a => a.checkNested
  | .call .. => throw .nestedCall
  | .missing => throw (.badNode (.expr .missing))
  | .eseq s v => throw (.badNode (.expr (.eseq s v)))

/-- Whether an expression is a pattern; a call may be its root. -/
def Expr.checkPattern : Expr → Except TemplateFault Unit
  | .call f _ _ => f.checkNested
  | e => e.checkNested

/-- Whether a pattern can be a destination. -/
def Expr.isPlace : Expr → Bool
  | .temp _ | .mem _ => true
  | _ => false

/-- Whether a statement is a pattern. -/
def Stmt.checkPattern : Stmt → Except TemplateFault Unit
  | .place _ => .ok ()
  | .move d s => do
    if !d.isPlace then throw (.badDestination d)
    d.checkNested
    s.checkNested
  | .jump d _ => d.checkNested
  | .cjump c l r _ _ => do
    if !c.isKnown then throw (.badCond c.code)
    l.checkNested
    r.checkNested
  | s => throw (.badNode (.stmt s))

/-- Whether a node is a pattern. -/
def Node.checkPattern : Node → Except TemplateFault Unit
  | .expr e => e.checkPattern
  | .stmt s => s.checkPattern

/-- The class of a node; templates are only tried on nodes of the class of their pattern. -/
inductive Head
  | none | int | addr | temp | mem | call | move | jump | place
  | bin (op : Op)
  | cjump (cond : Cond)
deriving DecidableEq, Repr

/-- The class of a node. -/
def Node.head : Node → Head
  | .expr (.int _) => .int
  | .expr (.addr _) => .addr
  | .expr (.temp _) => .temp
  | .expr (.bin op _ _ _) => .bin op
  | .expr (.mem _) => .mem
  | .expr (.call ..) => .call
  | .expr .missing | .expr (.eseq ..) => .none
  | .stmt (.move ..) => .move
  | .stmt (.jump ..) => .jump
  | .stmt (.cjump c _ _ _ _) => .cjump c
  | .stmt (.place _) => .place
  | .stmt .missing | .stmt (.eval _) | .stmt (.seq _) => .none

/-- Whether the class has a list of templates at all: unknown operators and conditions have none. -/
def Head.isKnown : Head → Bool
  | .bin op => op.isKnown
  | .cjump c => c.isKnown
  | _ => true

/-- How a node is described when nothing matches it. -/
def Node.description : Node → String
  | .expr (.int _) => "integer"
  | .expr (.addr _) => "label address"
  | .expr (.temp _) => "register"
  | .expr (.bin op _ _ _) => "binary op " ++ op.symbol
  | .expr (.mem _) => "memory"
  | .expr (.call ..) => "call"
  | .expr (.eseq ..) => "eseq"
  | .expr .missing => "none"
  | .stmt (.move ..) => "move"
  | .stmt (.jump ..) => "jump"
  | .stmt (.cjump c _ _ _ _) => "conditional jump " ++ c.symbol
  | .stmt (.place _) => "label placement"
  | .stmt .missing | .stmt (.eval _) | .stmt (.seq _) => "none"

end Codegen
