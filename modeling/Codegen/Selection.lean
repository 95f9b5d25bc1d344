import Codegen.Catalog
import Codegen.Event

/-!
# Selection

Canonical trees become instructions by covering them with templates from the root down: each node
takes the template that covers most, what is left over is computed into fresh registers first, and a
call places its arguments by the machine's convention. What was selected so far stays when a tree
can not be covered.
-/

namespace Codegen

/-- How calls pass their arguments. -/
structure Convention where
  /-- The code to run before a call and the machine registers that the call reads, for the given
  arguments and link. There is none if the arguments can not be passed. -/
  place : List (Option Reg) → Option Reg → Option (Code × List (Option Reg))
  /-- The code to run after the call. -/
  remove : List (Option Reg) → Code

namespace Selection

/-- What selection works with: the machine, and how it calls. -/
structure Kit where
  catalog : Catalog
  convention : Option Convention

/-- What selection works on. -/
structure State where
  supply : Supply := {}
  /-- The code selected so far. -/
  code : Code := []
  log : Array Event := #[]
deriving Inhabited

/-- A step of selection. -/
abbrev Run := Pass State

/-- A fresh register. -/
def freshReg : Run Reg :=
  Pass.step fun st =>
    let (r, supply) := st.supply.freshReg
    (r, { st with supply })

/-- Append code. -/
def emit (code : Code) : Run Unit := modify fun st => { st with code := st.code ++ code }

/-- The code selected so far, which is then empty. -/
def take : Run Code := Pass.step fun st => (st.code, { st with code := [] })

/-- Tell which template was found for a node. -/
def tell (x : Node) (t : Template) (b : Binding) : Run Unit :=
  modify fun st => { st with log := st.log.push (.templateFound x t b.covered) }

/-! ### Filling in skeletons -/

/-- The index of a register in a list, which gets it if it does not have it. -/
def slotIn (list : List (Option Reg)) (r : Option Reg) : List (Option Reg) × Nat :=
  match list.idxOf? r with
  | some i => (list, i)
  | none => (list ++ [r], list.length)

/-- The list with all of the given registers. -/
def withRegs (list : List (Option Reg)) (rs : List (Option Reg)) : List (Option Reg) :=
  rs.foldl (fun l r => (slotIn l r).1) list

/-- An instruction while its text is being filled in. -/
structure Draft where
  text : String := ""
  reads : List (Option Reg) := []
  writes : List (Option Reg) := []
  label : Option Label := none
deriving Inhabited

namespace Draft

/-- Append text. -/
def say (d : Draft) (s : String) : Draft := { d with text := d.text ++ s }

/-- Append a reference to a register, which is recorded as read or written. A register that is both
is referred to as written. -/
def refer (d : Draft) (r : Option Reg) (access : Access) : Draft :=
  match access with
  | .read =>
    let (reads, i) := slotIn d.reads r
    { d with reads, text := d.text ++ "&i" ++ toString i }
  | .write =>
    let (writes, i) := slotIn d.writes r
    { d with writes, text := d.text ++ "&o" ++ toString i }
  | .update =>
    let (reads, _) := slotIn d.reads r
    let (writes, i) := slotIn d.writes r
    { d with reads, writes, text := d.text ++ "&o" ++ toString i }

/-- Append a leaf. -/
def leaf (d : Draft) (n : Nat) (access : Access) : Leaf → Except TemplateFault Draft
  | .temp (some r) => .ok (d.refer (some r) access)
  | .temp none => .error (.leafValue n (.temp none))
  | .int v => .ok (d.say (wordText v))
  | .addr l => .ok (d.say (Label.render l))
  | .glue e => .error (.leafValue n e)

/-- Append a part of a skeleton for the node `x`, with its leaves and the register `dst` for the
value. -/
def part (x : Node) (leaves : List Leaf) (dst : Option Reg) (d : Draft) :
    Part → Except TemplateFault Draft
  | .text s => .ok (d.say s)
  | .leaf n access => d.leaf n access (leaves.getD n (.glue .missing))
  | .out access => .ok (d.refer dst access)
  | .fixed r access => .ok (d.refer (some r) access)
  | .onTrue =>
    match x with
    | .stmt (.cjump _ _ _ t _) => .ok (d.say (Label.render t))
    | _ => .error (.branchLabel x)
  | .onFalse =>
    match x with
    | .stmt (.cjump _ _ _ _ f) => .ok (d.say (Label.render f))
    | _ => .error (.branchLabel x)
  | .label =>
    match x with
    | .stmt (.place l) => .ok { d.say (Label.render l) with label := l }
    | _ => .error (.placeLabel x)

end Draft

/-- Where a branching instruction made for a node goes, and whether control may also go on. -/
def branchDests : Node → Except TemplateFault (List (Option Label) × Bool)
  | .stmt (.jump _ targets) => .ok (targets, false)
  | .stmt (.cjump _ _ _ t _) => .ok ([t], true)
  | x => .error (.branch x)

/-- Whether the registers read and written are those of a copy. -/
def isCopy : List (Option Reg) → List (Option Reg) → Bool
  | [a], [b] => a != b
  | _, _ => false

/-- The instruction that a recipe gives for a node; `used` are the registers that hold the arguments
of a call. -/
def instance? (x : Node) (leaves : List Leaf) (dst : Option Reg) (used : List (Option Reg))
    (r : Recipe) : Except TemplateFault Instr := do
  let d ← r.parts.foldlM (Draft.part x leaves dst) {}
  let reads := withRegs d.reads (r.uses.map some)
  let writes := withRegs d.writes (r.defs.map some)
  let reads := if r.isCall then withRegs reads used else reads
  let (dests, next) ← if r.isBranch then branchDests x else pure ([], false)
  return {
    text := d.text, reads, writes, label := d.label
    isMove := r.isMove && isCopy reads writes
    dests, next }

/-- Emit the instructions of a template; those that make a value only if there is a register for
it. -/
def fill (x : Node) (t : Template) (leaves : List Leaf) (dst : Option Reg)
    (used : List (Option Reg)) : List Recipe → Run Unit
  | [] => pure ()
  | r :: rest => do
    if r.makesValue && dst.isNone then fill x t leaves dst used rest
    else
      match instance? x leaves dst used r with
      | .ok i =>
        emit [i]
        fill x t leaves dst used rest
      | .error why => Pass.fail (.within (.template t.text) (.template why))

/-! ### Covering trees -/

/-- The best match of a node. -/
def find (k : Kit) (x : Node) : Run { m : Template × Binding // k.catalog.find? x = some m } :=
  if !x.head.isKnown then Pass.trap
  else
    match k.catalog.find? x with
    | none => Pass.fail (.unmatched (.node x.description x))
    | some m => do
      tell x m.1 m.2
      return ⟨m, rfl⟩

/-- The machine's convention for calls. -/
def convention (k : Kit) : Run Convention :=
  match k.convention with
  | none => Pass.fail (.noConvention k.catalog.name)
  | some c => pure c

mutual

/-- Select code that leaves the value of an expression in `dst`; without a register only its effects
are kept. -/
def selectExpr (k : Kit) (x : Expr) (dst : Option Reg) : Run Unit :=
  match x with
  | .eseq s v => Pass.fail (.unmatched (.notCanonical (.eseq s v)))
  | .call f args link => do
    let ⟨(t, b), h⟩ ← find k (.expr (.call f args link))
    have := Catalog.glueSize_find?_lt h
    let leaves ← selectLeaves k b.leaves
    let conv ← convention k
    let args ← selectArgs k args
    let parent ← if link.isPresent then do
        let r ← freshReg
        selectExpr k link (some r)
        pure (some r)
      else pure none
    let (code, used) ← Pass.orTrap (conv.place args parent)
    emit code
    fill (.expr x) t leaves dst used t.recipes
    emit (conv.remove args)
  | x => do
    let ⟨(t, b), h⟩ ← find k (.expr x)
    have := Catalog.glueSize_find?_lt h
    let leaves ← selectLeaves k b.leaves
    fill (.expr x) t leaves dst [] t.recipes
termination_by (x.size, 0)
decreasing_by
  all_goals simp only [Prod.lex_def, Expr.size] at *
  all_goals omega

/-- Select code for what is left over: each expression goes into a fresh register. -/
def selectLeaves (k : Kit) (ls : List Leaf) : Run (List Leaf) :=
  match ls with
  | [] => pure []
  | .glue e :: rest => do
    let r ← freshReg
    selectExpr k e (some r)
    let rest ← selectLeaves k rest
    return .temp (some r) :: rest
  | l :: rest => do
    let rest ← selectLeaves k rest
    return l :: rest
termination_by (Leaf.glueSize ls, ls.length + 1)
decreasing_by
  · simp only [Prod.lex_def, Leaf.glueSize]
    omega
  · simp only [Prod.lex_def, Leaf.glueSize, List.length_cons]
    omega
  · have := Leaf.glueSize_le_cons l rest
    simp only [Prod.lex_def, List.length_cons]
    omega

/-- Select code for call arguments: each goes into a fresh register. -/
def selectArgs (k : Kit) (args : List Expr) : Run (List (Option Reg)) :=
  match args with
  | [] => pure []
  | a :: rest => do
    let r ← freshReg
    selectExpr k a (some r)
    let rest ← selectArgs k rest
    return some r :: rest
termination_by (Expr.sizes args, args.length + 1)
decreasing_by
  all_goals simp only [Prod.lex_def, Expr.sizes, List.length_cons]
  all_goals omega

end

/-- Select code for a statement that is no sequence and not evaluated for effect only. -/
def selectNode (k : Kit) (x : Stmt) : Run Unit := do
  let ⟨(t, b), _⟩ ← find k (.stmt x)
  let leaves ← selectLeaves k b.leaves
  fill (.stmt x) t leaves none [] t.recipes

mutual

/-- Select code for a statement. -/
def selectStmt (k : Kit) : Stmt → Run Unit
  | .missing => Pass.fail (.unmatched .absentStmt)
  | .seq list => selectStmts k list
  | .eval e => selectExpr k e none
  | .move d s => selectNode k (.move d s)
  | .jump d ts => selectNode k (.jump d ts)
  | .cjump c l r t f => selectNode k (.cjump c l r t f)
  | .place l => selectNode k (.place l)

/-- Select code for statements one after the other. -/
def selectStmts (k : Kit) : List Stmt → Run Unit
  | [] => pure ()
  | s :: rest => do
    selectStmt k s
    selectStmts k rest

end

end Selection

end Codegen
