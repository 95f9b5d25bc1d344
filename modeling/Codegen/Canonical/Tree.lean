import Codegen.Canonical.Fold
import Codegen.Canonical.Hoist
import Codegen.Error

/-!
# Canonical trees

Every side effect becomes a statement of its own, in the order in which it happens, and the
expressions that are left can be evaluated in any order. A canonical statement is a list of
statements without sequences; a canonical expression is a hoisted value. Calls stay where they are
only as the whole of an evaluated expression, or as the source of a move to a register or to a fixed
address; any other call goes through a fresh register.

Divisions by the constant zero are kept, and a warning is left for each.
-/

namespace Codegen.Canonical

/-- Something doubtful at a source position. -/
structure Warning where
  pos : Int
  message : String
deriving DecidableEq, Repr, Inhabited

/-- What canonicalization works on. -/
structure State where
  supply : Supply := {}
  /-- Warnings in the order in which they came up. -/
  warnings : List Warning := []
deriving Inhabited

/-- A step of canonicalization. -/
abbrev Run := Pass State

/-- A fresh register. -/
def freshReg : Run Reg :=
  Pass.step fun st =>
    let (r, supply) := st.supply.freshReg
    (r, { st with supply })

/-- Hoist the statements of operands. -/
def pull (ops : List Hoisted) : Run (List Stmt × List Expr) :=
  Pass.step fun st =>
    let (pre, values, supply) := hoistAll ops st.supply
    ((pre, values), { st with supply })

/-- Hoist the statements of two operands. -/
def pullPair (a b : Hoisted) : Run (List Stmt × Expr × Expr) := do
  let (pre, values) ← pull [a, b]
  return (pre, values.getD 0 .missing, values.getD 1 .missing)

/-- Leave a warning if the application is a division by the constant zero. -/
def warnDivision (op : Op) (right : Expr) (pos : Int) : Run Unit :=
  if Expr.dividesByZero op right then
    modify fun st => { st with warnings := st.warnings ++ [⟨pos, "division by zero"⟩] }
  else pure ()

/-- A call of hoisted operands: the callee, the arguments, and the link if there is one. -/
def callOf (operands : List Expr) (args : Nat) (linked : Bool) : Expr :=
  .call (operands.getD 0 .missing) ((operands.drop 1).take args)
    (if linked then operands.getLastD .missing else .missing)

/-- Evaluate for effect: a constant leaves nothing. -/
def evalStmts (h : Hoisted) : List Stmt :=
  if h.value.isConst then h.pre else h.pre ++ [.eval h.value]

/-- A conditional jump on two hoisted operands. Between constants it is decided. -/
def branchStmts (cond : Cond) (l r : Hoisted) (t f : Option Label) : Run (List Stmt) := do
  let (pre, a, b) ← pullPair l r
  match a, b with
  | .int x, .int y =>
    let holds ← Pass.orTrap (cond.holds? x y)
    return pre ++ [.goto (if holds then t else f)]
  | _, _ => return pre ++ [.cjump cond a b t f]

/-- A place of a label. -/
def placeStmts : Option Label → Run (List Stmt)
  | none => Pass.fail (.malformed .absentLabel)
  | some l => pure [.place (some l)]

/-- Whether a move to memory at this address may take a call as its source. -/
def isFixedAddress : Expr → Bool
  | .addr _ => true
  | _ => false

mutual

/-- The canonical form of an expression. `whole` is set where a call may stay in place. -/
def hoistExpr : Expr → Bool → Run Hoisted
  | .missing, _ => Pass.fail (.malformed .absentExpr)
  | .int v, _ => pure ⟨[], .int v⟩
  | .addr l, _ => pure ⟨[], .addr l⟩
  | .temp none, _ => Pass.fail (.malformed .absentReg)
  | .temp (some r), _ => pure ⟨[], .temp (some r)⟩
  | .bin op l r pos, _ => do
    let l ← hoistExpr l false
    let r ← hoistExpr r false
    let (pre, a, b) ← pullPair l r
    warnDivision op b pos
    return ⟨pre, .fold op a b pos⟩
  | .mem a, _ => do
    let a ← hoistExpr a false
    return ⟨a.pre, .mem a.value⟩
  | .call f args link, whole => do
    let f ← Pass.within .callee (hoistExpr f false)
    let as ← hoistArgs 0 args
    let ls ← if link.isPresent then
        (fun l => [l]) <$> Pass.within .link (hoistExpr link false)
      else pure []
    let (pre, values) ← pull (f :: as ++ ls)
    let call := callOf values args.length link.isPresent
    if whole then return ⟨pre, call⟩
    else
      let r ← freshReg
      return ⟨pre ++ [.move (.temp (some r)) call], .temp (some r)⟩
  | .eseq s v, whole => do
    let first ← hoistStmt s
    let v ← hoistExpr v whole
    return ⟨first ++ v.pre, v.value⟩

/-- The canonical forms of call arguments, the first of which has number `i`. -/
def hoistArgs (i : Nat) : List Expr → Run (List Hoisted)
  | [] => pure []
  | a :: rest => do
    let a ← Pass.within (.arg i) (hoistExpr a false)
    let rest ← hoistArgs (i + 1) rest
    return a :: rest

/-- The canonical form of a statement. -/
def hoistStmt : Stmt → Run (List Stmt)
  | .missing => Pass.fail (.malformed .absentStmt)
  | .seq list => hoistList 0 list
  | .place l => placeStmts l
  | .move d s => hoistMove d fun whole => hoistExpr s whole
  | .eval e => evalStmts <$> hoistExpr e true
  | .jump d targets => do
    if targets.isEmpty then Pass.fail (.malformed (.jumpNowhere (.jump d targets)))
    let d ← hoistExpr d false
    return d.pre ++ [.jump d.value targets]
  | .cjump c l r t f => do
    if t.isNone || f.isNone then Pass.fail (.malformed (.branchNowhere (.cjump c l r t f)))
    let l ← hoistExpr l false
    let r ← hoistExpr r false
    branchStmts c l r t f

/-- The canonical form of the statements of a sequence, the first of which has number `i`. -/
def hoistList (i : Nat) : List Stmt → Run (List Stmt)
  | [] => pure []
  | s :: rest => do
    let s ← Pass.within (.item i) (hoistStmt s)
    let rest ← hoistList (i + 1) rest
    return s ++ rest

/-- A move to a destination of the value of `src`, which is told whether a call may stay. Statements
inside the destination run before anything of the move. -/
def hoistMove : Expr → (Bool → Run Hoisted) → Run (List Stmt)
  | .temp r, src => do
    let v ← src true
    return v.pre ++ [.move (.temp r) v.value]
  | .mem a, src => do
    let addr ← hoistExpr a false
    let v ← src (isFixedAddress a)
    let (pre, a, v) ← pullPair addr v
    return pre ++ [.move (.mem a) v]
  | .eseq s v, src => do
    let (first, n) ← hoistParts 0 s
    if n = 0 then hoistMove v src
    else
      let rest ← Pass.within (.item n) (hoistMove v src)
      return first ++ rest
  | d, _ => Pass.fail (.malformed (.badDestination d))

/-- The canonical form of a statement inside a destination, taken apart into the parts of its
sequences, of which `i` came before; also the number of parts up to its end. Absent statements and
evaluations of constants are no parts. -/
def hoistParts (i : Nat) : Stmt → Run (List Stmt × Nat)
  | .missing => pure ([], i)
  | .seq list => hoistPartsOf i list
  | .place l => (fun r => (r, i + 1)) <$> Pass.within (.item i) (placeStmts l)
  | .move d s =>
    (fun r => (r, i + 1)) <$> Pass.within (.item i) (hoistMove d fun whole => hoistExpr s whole)
  | .eval e => do
    if e.isConst then return ([], i)
    else
      let h ← Pass.within (.item i) (hoistExpr e true)
      return (evalStmts h, i + 1)
  | .jump d targets => do
    if targets.isEmpty then
      Pass.within (.item i) (Pass.fail (.malformed (.jumpNowhere (.jump d targets))))
    let d ← Pass.within (.item i) (hoistExpr d false)
    return (d.pre ++ [.jump d.value targets], i + 1)
  | .cjump c l r t f => do
    if t.isNone || f.isNone then
      Pass.within (.item i) (Pass.fail (.malformed (.branchNowhere (.cjump c l r t f))))
    let l ← Pass.within (.item i) (hoistExpr l false)
    let r ← Pass.within (.item i) (hoistExpr r false)
    let list ← branchStmts c l r t f
    return (list, i + 1)

/-- The parts of several statements inside a destination. -/
def hoistPartsOf (i : Nat) : List Stmt → Run (List Stmt × Nat)
  | [] => pure ([], i)
  | s :: rest => do
    let (a, i) ← hoistParts i s
    let (b, i) ← hoistPartsOf i rest
    return (a ++ b, i)

end

/-- The canonical form of a statement: a statement that is no sequence, or a sequence of none or at
least two such. -/
def stmt (s : Stmt) : Run Stmt := Stmt.ofList <$> hoistStmt s

/-- The canonical form of an expression: a value, or a canonical statement and a value. -/
def expr (e : Expr) : Run Expr := Hoisted.toExpr <$> hoistExpr e true

end Codegen.Canonical
