import Codegen.Text.Basic
import Codegen.Tree.Printer

/-!
# Errors

What can be wrong with a tree, a template, a piece of code or a request, where it was met, and how
it is told. An error is a cause inside any number of contexts; its message names the contexts from
the outside in and then the cause.
-/

namespace Codegen

/-- Why a tree is not a program. -/
inductive Malformed
  | absentStmt
  | absentExpr
  | absentReg
  | absentLabel
  /-- A jump that lists no targets. -/
  | jumpNowhere (s : Stmt)
  /-- A conditional jump that lacks one of its labels. -/
  | branchNowhere (s : Stmt)
  /-- A move to something that can not be written. -/
  | badDestination (dst : Expr)

/-- Why no instructions were selected. -/
inductive Unmatched
  | absentStmt
  /-- An expression that still contains statements. -/
  | notCanonical (e : Expr)
  /-- No template of the node's class matches it. -/
  | node (what : String) (x : Node)

/-- Why a template is refused, or can not be filled in. -/
inductive TemplateFault
  | badOp (code : Int)
  | badCond (code : Int)
  | nestedCall
  | badDestination (dst : Expr)
  | badNode (x : Node)
  | strayClose (offset : Nat)
  | unclosed (offset : Nat)
  | unknownReg (name : String)
  | badPlaceholder (text : String)
  | leafRange (leaf leaves : Nat)
  | leafNotWritable (leaf : Nat)
  | leafValue (leaf : Nat) (x : Expr)
  | branchLabel (x : Node)
  | placeLabel (x : Node)
  | branch (x : Node)

/-- What the compiler was doing when an error came up. -/
inductive Context
  | item (index : Nat)
  | callee
  | arg (index : Nat)
  | link
  | template (text : String)
  | skeleton (text : String)
  | offset (n : Nat)
  | flowGraph
  | canonicalize
  | arrange
  | select
  | selectResult
  | allocate
  | entry (label : Option Label)
  | function (label : Option Label)
  | program

/-- Everything that can be reported. -/
inductive Error
  | malformed (why : Malformed)
  | unmatched (why : Unmatched)
  | template (why : TemplateFault)
  | unknownLabel (index : Nat) (text : String) (label : Option Label)
  | placedTwice (label : Option Label) (first second : Nat)
  | notAllocatable (r : Option Reg)
  /-- Two registers live at once have one color. -/
  | colorClash (index : Nat) (defined live : Option Reg) (color : Nat)
  | roundsSpent (rounds : Nat)
  /-- A register made for a spill would have to be spilled. -/
  | temporaryStuck (r : Option Reg) (colors : Nat)
  | noRegisters (catalog : String)
  | noConvention (catalog : String)
  | noSupply
  | foreignSupply
  | noEntry
  | unknownTarget (name : String)
  | unknownSample (name : String)
  | within (place : Context) (cause : Error)

/-- The families into which errors are sorted. -/
inductive ErrorKind
  | malformed | noTemplate | badTemplate | unknownLabel | invariant | noProgress
  | unknownTarget | unknownSample | other
deriving DecidableEq, Repr

/-- How a malformed tree is described. -/
def Malformed.message : Malformed → String
  | absentStmt => "nil statement"
  | absentExpr => "nil expression"
  | absentReg => "register without reg"
  | absentLabel => "label placement without label"
  | jumpNowhere s => "jump without targets: " ++ s.text
  | branchNowhere s => "cjump without targets: " ++ s.text
  | badDestination d => "move to " ++ d.kindName

/-- How a failed selection is described. -/
def Unmatched.message : Unmatched → String
  | absentStmt => "nil statement"
  | notCanonical e => "non canonical expression: " ++ e.text
  | node what x => what ++ ": " ++ x.text

/-- How a faulty template is described. -/
def TemplateFault.message : TemplateFault → String
  | badOp c => "bad op " ++ toString c
  | badCond c => "bad cond " ++ toString c
  | nestedCall => "call must be the pattern root"
  | badDestination d => "move to " ++ d.kindName
  | badNode x => "unsupported pattern node " ++ x.kindName
  | strayClose n => "unexpected \x7d at " ++ toString n
  | unclosed n => "unclosed \x7b at " ++ toString n
  | unknownReg name => "unknown register " ++ name
  | badPlaceholder text => "bad placeholder \x7b" ++ text ++ "\x7d"
  | leafRange leaf leaves => "leaf " ++ toString leaf ++ " of " ++ toString leaves
  | leafNotWritable leaf => "write to non register leaf " ++ toString leaf
  | leafValue leaf x => "leaf " ++ toString leaf ++ ": " ++ x.kindName
  | branchLabel x => "branch label in " ++ x.kindName ++ " template"
  | placeLabel x => "label in " ++ x.kindName ++ " template"
  | branch x => "branch in " ++ x.kindName ++ " template"

/-- How a context is described. -/
def Context.message : Context → String
  | item i => "seq " ++ toString i
  | callee => "callee"
  | arg i => "arg " ++ toString i
  | link => "callee fp"
  | template t => "template " ++ t
  | skeleton t => "skeleton " ++ Text.quoted t
  | offset n => "at " ++ toString n
  | flowGraph => "flow graph"
  | canonicalize => "canonicalize"
  | arrange => "arrange jumps"
  | select => "select"
  | selectResult => "select result"
  | allocate => "allocate"
  | entry l => "entry " ++ Label.render l
  | function l => "func " ++ Label.render l
  | program => "back"

namespace Error

/-- The family of an error; contexts do not change it. -/
def kind : Error → ErrorKind
  | malformed _ => .malformed
  | unmatched _ => .noTemplate
  | template _ => .badTemplate
  | unknownLabel .. => .unknownLabel
  | notAllocatable _ | colorClash .. => .invariant
  | roundsSpent _ | temporaryStuck .. => .noProgress
  | unknownTarget _ => .unknownTarget
  | unknownSample _ => .unknownSample
  | placedTwice .. | noRegisters _ | noConvention _ | noSupply | foreignSupply | noEntry => .other
  | within _ cause => cause.kind

/-- The message of an error. -/
def message : Error → String
  | malformed why => why.message ++ ": malformed ir"
  | unmatched why => why.message ++ ": no template"
  | template why => why.message ++ ": bad template"
  | unknownLabel i text l =>
    "instruction " ++ toString i ++ " " ++ Text.quoted text ++ ": " ++ Label.render l
      ++ ": unknown label"
  | placedTwice l i j =>
    "label " ++ Label.render l ++ " placed twice: " ++ toString i ++ " and " ++ toString j
  | notAllocatable r =>
    "register " ++ Reg.render r ++ " is not allocatable: allocator invariant violated"
  | colorClash i d v c =>
    "instruction " ++ toString i ++ ": " ++ Reg.render d ++ " defined while " ++ Reg.render v
      ++ " is live, both colored " ++ toString c ++ ": allocator invariant violated"
  | roundsSpent n => toString n ++ " rounds: spilling makes no progress"
  | temporaryStuck r k =>
    "spill temporary " ++ Reg.render r ++ " does not fit in " ++ toString k
      ++ " registers: spilling makes no progress"
  | noRegisters name => name ++ ": no allocatable registers"
  | noConvention name => name ++ ": no calling convention"
  | noSupply => "program without env"
  | foreignSupply => "program built in another env"
  | noEntry => "no entry function"
  | unknownTarget name => Text.quoted name ++ ": unknown target"
  | unknownSample name => Text.quoted name ++ ": unknown sample"
  | within place cause => place.message ++ ": " ++ cause.message

end Error

/-- How an operation can fail: by reporting an error, or by a trap where it was asked for something
that has no meaning at all, after which nothing is reported. -/
inductive Failure
  | error (e : Error)
  | trap

/-- A stage of compilation: it works on a state, which also survives a failure. -/
abbrev Pass (σ : Type) := EStateM Failure σ

namespace Pass

/-- Report an error. -/
def fail {σ α : Type} (e : Error) : Pass σ α := throw (.error e)

/-- Stop without a report. -/
def trap {σ α : Type} : Pass σ α := throw .trap

/-- Run a stage and put its error, if there is one, into a context. -/
def within {σ α : Type} (place : Context) (x : Pass σ α) : Pass σ α := fun s =>
  match x s with
  | .ok a s => .ok a s
  | .error (.error e) s => .error (.error (.within place e)) s
  | .error .trap s => .error .trap s

/-- Run a stage on a part of the state. -/
def zoom {σ τ α : Type} (get : σ → τ) (set : τ → σ → σ) (x : Pass τ α) : Pass σ α := fun s =>
  match x (get s) with
  | .ok a t => .ok a (set t s)
  | .error e t => .error e (set t s)

/-- Run a pure change of state that yields a value. -/
def step {σ α : Type} (f : σ → α × σ) : Pass σ α := fun s =>
  let (a, s) := f s
  .ok a s

/-- The value of a computation that leaves the state alone, or its error. -/
def ofExcept {σ α : Type} : Except Error α → Pass σ α
  | .ok a => pure a
  | .error e => fail e

/-- The state that a stage leaves behind, also where it fails. -/
def stateAfter {σ α : Type} (x : Pass σ α) (s : σ) : σ :=
  match x s with
  | .ok _ s => s
  | .error _ s => s

/-- The value of an optional answer; without one the stage traps. -/
def orTrap {σ α : Type} : Option α → Pass σ α
  | some a => pure a
  | none => trap

end Pass

end Codegen
