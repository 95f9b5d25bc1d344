import Codegen.Coloring.Cost
import Codegen.Coloring.Worklist
import Codegen.Instr
import Codegen.Template.Basic

/-!
# Events

What the stages of compilation tell about their work, in the order in which it happens. An event has
a text and named values.
-/

namespace Codegen

/-- A value shown with an event. -/
inductive EventValue
  | absent
  | text (s : String)
  | number (n : Int)
  | real (x : Float)
  | names (list : List String)

/-- When the state of the coloring is shown. -/
inductive Phase
  | classified | colored
deriving DecidableEq, Repr

/-- Something that happened during compilation. -/
inductive Event
  | blobAdded (label : Label) (size : Nat)
  | sample (name arch : String)
  | warning (pos : Int) (message : String)
  | canonical (body : Stmt)
  | selected (code : Code)
  | compiled (instrs : Nat) (frame : Int64) (rounds spilled : Nat)
  | templateFound (node : Node) (template : Template) (covered : Nat)
  | node (phase : Phase) (reg : Option Reg) (state : NodeState) (color : Option Nat) (degree : Int)
      (interferes : List (Option Reg))
  | move (phase : Phase) (index : Nat) (dst src : Option Reg) (state : MoveState)
  | simplify (reg : Option Reg) (degree : Int)
  | constrained (dst src : Option Reg)
  | coalesce (keep merge : Option Reg)
  | freeze (reg : Option Reg)
  | potentialSpill (reg : Option Reg) (cost : Cost) (candidates : Nat)
  | spill (reg : Option Reg) (count : Nat)
  | round (round regs colors spilled coalesced : Nat)

/-- The name of a phase. -/
def Phase.text : Phase → String
  | classified => "classified"
  | colored => "colored"

namespace EventValue

/-- A register by its name. -/
def ofReg : Option Reg → EventValue
  | none => absent
  | some r => text r.text

/-- A natural number. -/
def ofNat (n : Nat) : EventValue := number n

end EventValue

namespace Event

open EventValue (ofReg ofNat)

/-- The text of an event. -/
def title : Event → String
  | blobAdded .. => "blob added"
  | sample .. => "sample"
  | warning .. => "warning"
  | canonical _ => "canonical"
  | selected _ => "selected"
  | compiled .. => "compiled"
  | templateFound .. => "template found"
  | node phase .. => phase.text
  | move phase .. => phase.text
  | simplify .. => "simplify"
  | constrained .. => "constrained move"
  | coalesce .. => "coalesce"
  | freeze _ => "freeze"
  | potentialSpill .. => "potential spill"
  | spill .. => "spill"
  | round .. => "round"

/-- The named values of an event. -/
def values : Event → List (String × EventValue)
  | blobAdded l n => [("label", .text l.text), ("size", ofNat n)]
  | sample name arch => [("name", .text name), ("arch", .text arch)]
  | warning pos msg => [("pos", .number pos), ("msg", .text msg)]
  | canonical body => [("body", .text body.text)]
  | selected code =>
    [("instrs", ofNat code.length), ("code", .text ((Code.render .empty code).getD ""))]
  | compiled n frame rounds spilled =>
    [("instrs", ofNat n), ("frame", .number frame.toInt), ("rounds", ofNat rounds),
      ("spilled", ofNat spilled)]
  | templateFound x t n =>
    [("node", .text x.text), ("template", .text t.text), ("covered", ofNat n)]
  | node _ r s c d adj =>
    [("reg", ofReg r), ("state", .text s.text),
      ("color", .number ((c.map Int.ofNat).getD (-1))), ("degree", .number d),
      ("interferes", .names (adj.map Reg.render))]
  | move _ i d s st =>
    [("move", ofNat i), ("dst", ofReg d), ("src", ofReg s), ("state", .text st.text)]
  | simplify r d => [("reg", ofReg r), ("degree", .number d)]
  | constrained d s => [("dst", ofReg d), ("src", ofReg s)]
  | coalesce k m => [("keep", ofReg k), ("merge", ofReg m)]
  | freeze r => [("reg", ofReg r)]
  | potentialSpill r c n =>
    [("reg", ofReg r), ("cost", .real c.toFloat), ("candidates", ofNat n)]
  | spill r n => [("reg", ofReg r), ("count", ofNat n)]
  | round n regs colors spilled merged =>
    [("round", ofNat n), ("regs", ofNat regs), ("colors", ofNat colors),
      ("spilled", ofNat spilled), ("coalesced", ofNat merged)]

end Event

end Codegen
