import Codegen.Target.Basic

/-!
# The arm64 target

The 64-bit ARM machine. Eight arguments go in registers and further ones on the stack, sixteen bytes
each, which keeps the stack aligned.
-/

namespace Codegen.Target.Arm64

open TemplateSource

/-- The names of the registers with the given numbers. -/
def numbered (ns : List Nat) : List String := ns.map fun n => "X" ++ toString n

/-- The registers that a call may change. -/
def callerSaveNames : List String := numbered (List.range 16)

/-- The registers that a function keeps. -/
def calleeSaveNames : List String := numbered ((List.range 29).drop 19)

/-- The registers that may be allocated, in the order of their colors. -/
def regNames : List String := callerSaveNames ++ calleeSaveNames

/-- The registers that pass arguments. -/
def paramNames : List String := numbered (List.range 8)

/-- Operators with a three-operand instruction. -/
def arith : List (Op × String) :=
  [(.add, "ADD"), (.sub, "SUB"), (.mul, "MUL"), (.div, "SDIV"), (.and, "AND"), (.or, "ORR"),
    (.xor, "EOR"), (.shl, "LSL"), (.shr, "LSR"), (.sar, "ASR")]

/-- Operators whose instruction takes a constant. -/
def arithImm : List (Op × String) :=
  [(.add, "ADD"), (.sub, "SUB"), (.shl, "LSL"), (.shr, "LSR"), (.sar, "ASR")]

/-- The names of conditions. -/
def conds : List (Cond × String) :=
  [(.eq, "EQ"), (.ne, "NE"), (.lt, "LT"), (.le, "LE"), (.gt, "GT"), (.ge, "GE"),
    (.ult, "LO"), (.ule, "LS"), (.ugt, "HI"), (.uge, "HS")]

/-- A call, which changes the caller-save registers. -/
def callOp (text : String) : Skeleton :=
  { text := Skeleton.marked text, isCall := true, defs := callerSaveNames }

/-- The templates that make a value. -/
def values : List TemplateSource :=
  [value num [op "LDR ‹out›, =‹0›"],
    value lab [op "ADR ‹out›, ‹0›"],
    value reg [mv "MOV ‹out›, ‹0›"],
    value mem [op "LDR ‹out›, [‹0›]"],
    value memOff [op "LDR ‹out›, [‹0›, #‹1›]"],
    value memLab [op "LDR ‹out›, ‹0›"]]
  ++ arith.map (fun a => value (bin a.1 reg reg) [op (a.2 ++ " ‹out›, ‹0›, ‹1›")])
  ++ arithImm.map (fun a => value (bin a.1 reg num) [op (a.2 ++ " ‹out›, ‹0›, #‹1›")])
  ++ [value (.call lab [] .missing) [callOp "BL ‹0›", mv "MOV ‹out›, ‹in:X0›"],
    value (.call reg [] .missing) [callOp "BLR ‹0›", mv "MOV ‹out›, ‹in:X0›"]]

/-- The templates of a conditional jump. -/
def jumpTemplates (c : Cond × String) : List TemplateSource :=
  let go := br ("B." ++ c.2 ++ " ‹true›")
  [action (.cjump c.1 reg num none none) [op "CMP ‹0›, #‹1›", go],
    action (.cjump c.1 reg reg none none) [op "CMP ‹0›, ‹1›", go]]

/-- The templates for statements. -/
def actions : List TemplateSource :=
  [action (.move reg num) [op "LDR ‹=0›, =‹1›"],
    action (.move reg lab) [op "ADR ‹=0›, ‹1›"],
    action (.move reg reg) [mv "MOV ‹=0›, ‹1›"],
    action (.move reg mem) [op "LDR ‹=0›, [‹1›]"],
    action (.move reg memOff) [op "LDR ‹=0›, [‹1›, #‹2›]"],
    action (.move reg (bin .add reg num)) [op "ADD ‹=0›, ‹1›, #‹2›"],
    action (.move mem reg) [op "STR ‹1›, [‹0›]"],
    action (.move memOff reg) [op "STR ‹2›, [‹0›, #‹1›]"],
    action (.jump lab []) [br "B ‹0›"],
    action (.jump reg []) [br "BR ‹0›"]]
  ++ conds.flatMap jumpTemplates
  ++ [action (.place none) [op "‹label›:"]]

/-- The words of the assembler. -/
def dialect : Dialect where
  copy := "MOV &o0, &i0"
  load off := "LDR &o0, [&i0, #" ++ wordText off ++ "]"
  store off := "STR &i0, [&i1, #" ++ wordText off ++ "]"
  push := "STR &i0, [SP, #-16]!"
  stackStep := 16
  pad := none
  drop n := "ADD SP, SP, #" ++ toString n
  ret := "RET"
  enter := ["STP FP, LR, [SP, #-16]!", "MOV FP, SP"]
  reserve n := "SUB SP, SP, #" ++ wordText n
  leave := ["MOV SP, FP", "LDP FP, LR, [SP], #16"]
  dataSection := ".section .rodata"

/-- What comes before all functions: the program starts by calling the first one, and exits with its
result. -/
def entry (first : Option Label) (s : Supply) : Code × Supply :=
  let (start, s) := s.namedLabel "_start"
  ([.plain ".text", .plain (".global " ++ start.text), .plain ".align 4", .place start,
    .plain ("BL " ++ Label.render first), .plain "MOV X8, #93", .plain "SVC #0"], s)

/-- The catalog over the given registers. -/
def catalog (regs : List Reg) (fp sp : Reg) : Catalog :=
  let base : Catalog := { name := "arm64", machine := regs ++ [fp, sp] }
  let base := { base with
    regs := regs.map some
    params := paramNames.map base.reg?
    callerSave := callerSaveNames.map base.reg?
    calleeSave := calleeSaveNames.map base.reg?
    result := base.reg? "X0" }
  base.addAll (values ++ actions)

/-- The target, with its registers made by the supply. -/
def make (s : Supply) : Target × Supply :=
  let (regs, s) := s.namedRegs regNames
  let (fp, s) := s.namedReg "FP"
  let (sp, s) := s.namedReg "SP"
  let catalog := catalog regs fp sp
  ({ catalog, dialect, fp, link := (catalog.reg? "X9").getD fp, entry }, s)

end Codegen.Target.Arm64
