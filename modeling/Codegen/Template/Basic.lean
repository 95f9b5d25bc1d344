import Codegen.Template.Skeleton
import Codegen.Wire

/-!
# Templates

A template covers the nodes of a tree that its pattern matches with the instructions of its
skeletons. Its recipes are the skeletons with everything resolved that does not depend on the tree.
-/

namespace Codegen

/-- A skeleton with its placeholders and register names resolved. -/
structure Recipe where
  parts : List Part
  /-- Machine registers read without being named in the text. -/
  uses : List Reg
  /-- Machine registers written without being named in the text. -/
  defs : List Reg
  isMove : Bool
  isBranch : Bool
  isCall : Bool
deriving DecidableEq, Repr, Inhabited

/-- Whether the instruction makes the value of the template. -/
def Recipe.makesValue (r : Recipe) : Bool := r.parts.any Part.makesValue

/-- A pattern and the instructions for what it matches. -/
structure Template where
  pattern : Node
  skeletons : List Skeleton
  /-- Whether constants of any size match. -/
  wide : Bool
  recipes : List Recipe
deriving Inhabited

/-- How a template is shown: its pattern and the texts of its skeletons. -/
def templateText (pattern : Node) (skeletons : List Skeleton) : String :=
  pattern.text ++ " =>" ++ String.join (skeletons.map fun s => " " ++ Text.quoted s.text)

namespace Template

/-- How the template is shown. -/
def text (t : Template) : String := templateText t.pattern t.skeletons

/-- The wire form of a template: how it is shown. -/
def wire (t : Template) : Wire := .text t.text

end Template

/-- The registers with the given names. -/
def namedRegs (reg? : String → Option Reg) (skeleton : Skeleton) :
    List String → Except Error (List Reg)
  | [] => .ok []
  | name :: rest =>
    match reg? name with
    | some r => do
      let rs ← namedRegs reg? skeleton rest
      return r :: rs
    | none => .error (.within (.skeleton skeleton.text) (.template (.unknownReg name)))

/-- The recipe of a skeleton: its text is resolved first, then the registers it reads, then those it
writes. -/
def Recipe.ofSkeleton (reg? : String → Option Reg) (leaves : List LeafKind) (s : Skeleton) :
    Except Error Recipe := do
  let parts ← match (Piece.scan s.text).mapM (Part.ofPiece reg? leaves) with
    | .ok parts => pure parts
    | .error e => .error (.within (.skeleton s.text) e)
  let uses ← namedRegs reg? s s.uses
  let defs ← namedRegs reg? s s.defs
  return { parts, uses, defs, isMove := s.isMove, isBranch := s.isBranch, isCall := s.isCall }

/-- The template with the given pattern and skeletons, for a machine with the given registers. -/
def Template.make (reg? : String → Option Reg) (pattern : Node) (skeletons : List Skeleton)
    (wide : Bool) : Except Error Template :=
  let made : Except Error Template := do
    match pattern.checkPattern with
    | .ok () => pure ()
    | .error why => throw (.template why)
    let recipes ← skeletons.mapM (Recipe.ofSkeleton reg? pattern.leafKinds)
    return { pattern, skeletons, wide, recipes }
  match made with
  | .ok t => .ok t
  | .error e => .error (.within (.template (templateText pattern skeletons)) e)

end Codegen
