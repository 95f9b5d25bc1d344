import Codegen.Template.Pattern
import Codegen.Text.Basic

/-!
# Skeletons

A skeleton is the text of one instruction with placeholders between braces:

* a number `n` reads leaf `n` of the pattern, `=n` writes it and `+n` does both;
* `out` writes the value the template makes, `+out` also reads it;
* `in:R` reads and `out:R` writes the machine register named `R`;
* `true`, `false` and `label` are the labels of a conditional jump and of a placed label.

A text always splits into pieces; what is wrong with its braces is itself a piece. A piece is then
resolved to a part, or refused, against the leaves of a pattern and the registers of a catalog.
-/

namespace Codegen

/-- One instruction of a template, as it is written. -/
structure Skeleton where
  text : String
  /-- It copies one register to another. -/
  isMove : Bool := false
  /-- It jumps to the targets of the statement. -/
  isBranch : Bool := false
  /-- It reads the registers that hold call arguments. -/
  isCall : Bool := false
  /-- Names of machine registers it reads without saying so. -/
  uses : List String := []
  /-- Names of machine registers it writes without saying so. -/
  defs : List String := []
deriving DecidableEq, Repr, Inhabited

/-- A stretch of skeleton text. Offsets count bytes. -/
inductive Piece
  /-- Text without braces. -/
  | text (cs : List Char)
  /-- A placeholder and the offset of its opening brace. -/
  | slot (offset : Nat) (body : List Char)
  /-- A closing brace that closes nothing. -/
  | strayClose (offset : Nat)
  /-- An opening brace that is never closed. -/
  | unclosed (offset : Nat)
deriving DecidableEq, Repr

namespace Piece

/-- Text collected in reverse order, as a piece. -/
def ofReversed : List Char → List Piece
  | [] => []
  | cs => [text cs.reverse]

mutual

/-- The pieces of the rest of a text outside a placeholder; `acc` is the text just before it, in
reverse order. Nothing is looked for behind a stray brace. -/
def scanText (offset : Nat) (acc : List Char) : List Char → List Piece
  | [] => ofReversed acc
  | c :: cs =>
    if c = '\x7b' then ofReversed acc ++ scanSlot offset (offset + 1) [] cs
    else if c = '\x7d' then ofReversed acc ++ [strayClose offset]
    else scanText (offset + c.utf8Size) (c :: acc) cs

/-- The pieces of the rest of a text inside a placeholder opened at `start`. -/
def scanSlot (start offset : Nat) (acc : List Char) : List Char → List Piece
  | [] => [unclosed start]
  | c :: cs =>
    if c = '\x7d' then slot start acc.reverse :: scanText (offset + 1) [] cs
    else scanSlot start (offset + c.utf8Size) (c :: acc) cs

end

/-- The pieces of a text. -/
def scan (text : String) : List Piece := scanText 0 [] text.toList

/-- The source text of a piece. -/
def source : Piece → List Char
  | text cs => cs
  | slot _ body => '\x7b' :: body ++ ['\x7d']
  | strayClose _ => ['\x7d']
  | unclosed _ => ['\x7b']

end Piece

/-- What an instruction does with a register. -/
inductive Access
  | read | write | update
deriving DecidableEq, Repr

/-- Whether the register is read. -/
def Access.reads : Access → Bool
  | read | update => true
  | write => false

/-- Whether the register is written. -/
def Access.writes : Access → Bool
  | write | update => true
  | read => false

/-- A resolved piece of a skeleton. -/
inductive Part
  | text (s : String)
  | leaf (index : Nat) (access : Access)
  | out (access : Access)
  | fixed (r : Reg) (access : Access)
  | onTrue
  | onFalse
  | label
deriving DecidableEq, Repr

namespace Part

/-- The rest of a text behind a given beginning. -/
def dropStart? (start : String) (cs : List Char) : Option (List Char) :=
  if start.toList.isPrefixOf cs then some (cs.drop start.length) else none

/-- The machine register with the given name. -/
def fixedReg (reg? : String → Option Reg) (name : List Char) (access : Access) :
    Except TemplateFault Part :=
  match reg? (String.ofList name) with
  | some r => .ok (fixed r access)
  | none => .error (.unknownReg (String.ofList name))

/-- A reference to a leaf by its number. -/
def ofLeaf (leaves : List LeafKind) (number : List Char) (access : Access) :
    Except TemplateFault Part :=
  match Text.readInt? number with
  | some (.ofNat n) =>
    match leaves[n]? with
    | none => .error (.leafRange n leaves.length)
    | some kind =>
      if access.writes && kind != .temp then .error (.leafNotWritable n) else .ok (leaf n access)
  | _ => .error (.badPlaceholder (String.ofList number))

/-- The part that a placeholder stands for. -/
def ofPlaceholder (reg? : String → Option Reg) (leaves : List LeafKind) (body : List Char) :
    Except TemplateFault Part :=
  if body = "out".toList then .ok (out .write)
  else if body = "+out".toList then .ok (out .update)
  else if body = "true".toList then .ok onTrue
  else if body = "false".toList then .ok onFalse
  else if body = "label".toList then .ok label
  else
    match dropStart? "in:" body, dropStart? "out:" body with
    | some name, _ => fixedReg reg? name .read
    | none, some name => fixedReg reg? name .write
    | none, none =>
      match body with
      | '=' :: number => ofLeaf leaves number .write
      | '+' :: number => ofLeaf leaves number .update
      | number => ofLeaf leaves number .read

/-- The part that a piece stands for. -/
def ofPiece (reg? : String → Option Reg) (leaves : List LeafKind) : Piece → Except Error Part
  | .text cs => .ok (text (String.ofList cs))
  | .slot offset body =>
    match ofPlaceholder reg? leaves body with
    | .ok p => .ok p
    | .error why => .error (.within (.offset offset) (.template why))
  | .strayClose offset => .error (.template (.strayClose offset))
  | .unclosed offset => .error (.template (.unclosed offset))

/-- Whether the part makes the value of the template. -/
def makesValue : Part → Bool
  | out access => access.writes
  | _ => false

end Part

end Codegen
