import Codegen.Target.Basic

/-!
# The amd64 target

The 64-bit x86 machine. Six arguments go in registers and further ones on the stack, eight bytes
each; the stack stays a multiple of sixteen bytes at calls.
-/

namespace Codegen.Target.Amd64

open TemplateSource

/-- The registers that may be allocated, in the order of their colors. -/
def regNames : List String :=
  ["%rax", "%rdx", "%rcx", "%rbx", "%rsi", "%rdi", "%r8", "%r9",
    "%r10", "%r11", "%r12", "%r13", "%r14", "%r15"]

/-- The registers that pass arguments. -/
def paramNames : List String := ["%rdi", "%rsi", "%rdx", "%rcx", "%r8", "%r9"]

/-- The registers that a call may change. -/
def callerSaveNames : List String :=
  ["%rax", "%rcx", "%rdx", "%rsi", "%rdi", "%r8", "%r9", "%r10", "%r11"]

/-- The registers that a function keeps. -/
def calleeSaveNames : List String := ["%rbx", "%r12", "%r13", "%r14", "%r15"]

/-- Operators with a two-operand instruction. -/
def arith : List (Op × String) :=
  [(.add, "addq"), (.sub, "subq"), (.mul, "imulq"), (.and, "andq"), (.or, "orq"), (.xor, "xorq")]

/-- Shifts. -/
def shifts : List (Op × String) := [(.shl, "salq"), (.shr, "shrq"), (.sar, "sarq")]

/-- Conditional jumps. -/
def jumps : List (Cond × String) :=
  [(.eq, "je"), (.ne, "jne"), (.lt, "jl"), (.le, "jle"), (.gt, "jg"), (.ge, "jge"),
    (.ult, "jb"), (.ule, "jbe"), (.ugt, "ja"), (.uge, "jae")]

/-- A call, which changes the caller-save registers. -/
def callOp (text : String) : Skeleton :=
  { text := Skeleton.marked text, isCall := true, defs := callerSaveNames }

/-- The templates of an operator with a two-operand instruction. -/
def arithTemplates (a : Op × String) : List TemplateSource :=
  [value (bin a.1 reg num) [mv "movq ‹0›, ‹out›", op (a.2 ++ " $‹1›, ‹+out›")],
    value (bin a.1 reg reg) [mv "movq ‹0›, ‹out›", op (a.2 ++ " ‹1›, ‹+out›")],
    value (bin a.1 reg mem) [mv "movq ‹0›, ‹out›", op (a.2 ++ " (‹1›), ‹+out›")],
    value (bin a.1 reg memOff) [mv "movq ‹0›, ‹out›", op (a.2 ++ " ‹2›(‹1›), ‹+out›")]]

/-- The templates of a shift; a variable count goes through `%rcx`. -/
def shiftTemplates (a : Op × String) : List TemplateSource :=
  [value (bin a.1 reg num) [mv "movq ‹0›, ‹out›", op (a.2 ++ " $‹1›, ‹+out›")],
    value (bin a.1 reg reg)
      [mv "movq ‹1›, ‹out:%rcx›", mv "movq ‹0›, ‹out›",
        { op (a.2 ++ " %cl, ‹+out›") with uses := ["%rcx"] }]]

/-- The templates that make a value. -/
def values : List TemplateSource :=
  [value num [op "movq $‹0›, ‹out›"],
    wideValue num [op "movabsq $‹0›, ‹out›"],
    value lab [op "leaq ‹0›(%rip), ‹out›"],
    value reg [mv "movq ‹0›, ‹out›"],
    value mem [op "movq (‹0›), ‹out›"],
    value memOff [op "movq ‹1›(‹0›), ‹out›"],
    value memLab [op "movq ‹0›(%rip), ‹out›"],
    value (.mem num) [op "movq ‹0›, ‹out›"],
    value (bin .add reg num) [op "leaq ‹1›(‹0›), ‹out›"]]
  ++ arith.flatMap arithTemplates
  ++ shifts.flatMap shiftTemplates
  ++ [value (bin .div reg reg)
        [mv "movq ‹0›, ‹out:%rax›",
          { op "cqto" with uses := ["%rax"], defs := ["%rdx"] },
          { op "idivq ‹1›" with uses := ["%rax", "%rdx"], defs := ["%rax", "%rdx"] },
          mv "movq ‹in:%rax›, ‹out›"],
    value (.call lab [] .missing) [callOp "call ‹0›", mv "movq ‹in:%rax›, ‹out›"],
    value (.call reg [] .missing) [callOp "call *‹0›", mv "movq ‹in:%rax›, ‹out›"]]

/-- The templates of a conditional jump. -/
def jumpTemplates (j : Cond × String) : List TemplateSource :=
  let go := br (j.2 ++ " ‹true›")
  [action (.cjump j.1 reg num none none) [op "cmpq $‹1›, ‹0›", go],
    action (.cjump j.1 reg reg none none) [op "cmpq ‹1›, ‹0›", go],
    action (.cjump j.1 reg mem none none) [op "cmpq (‹1›), ‹0›", go],
    action (.cjump j.1 reg memOff none none) [op "cmpq ‹2›(‹1›), ‹0›", go]]

/-- The templates for statements. -/
def actions : List TemplateSource :=
  [action (.move reg num) [op "movq $‹1›, ‹=0›"],
    wideAction (.move reg num) [op "movabsq $‹1›, ‹=0›"],
    action (.move reg lab) [op "leaq ‹1›(%rip), ‹=0›"],
    action (.move reg reg) [mv "movq ‹1›, ‹=0›"],
    action (.move reg mem) [op "movq (‹1›), ‹=0›"],
    action (.move reg memOff) [op "movq ‹2›(‹1›), ‹=0›"],
    action (.move reg memLab) [op "movq ‹1›(%rip), ‹=0›"],
    action (.move reg (bin .add reg num)) [op "leaq ‹2›(‹1›), ‹=0›"],
    action (.move mem reg) [op "movq ‹1›, (‹0›)"],
    action (.move mem num) [op "movq $‹1›, (‹0›)"],
    action (.move memOff reg) [op "movq ‹2›, ‹1›(‹0›)"],
    action (.move memOff num) [op "movq $‹2›, ‹1›(‹0›)"],
    action (.move memLab reg) [op "movq ‹1›, ‹0›(%rip)"],
    action (.jump lab []) [br "jmp ‹0›"],
    action (.jump reg []) [br "jmp *‹0›"]]
  ++ jumps.flatMap jumpTemplates
  ++ [action (.place none) [op "‹label›:"]]

/-- The words of the assembler. -/
def dialect : Dialect where
  copy := "movq &i0, &o0"
  load off := "movq " ++ wordText off ++ "(&i0), &o0"
  store off := "movq &i0, " ++ wordText off ++ "(&i1)"
  push := "pushq &i0"
  stackStep := 8
  pad := some "subq $8, %rsp"
  drop n := "addq $" ++ toString n ++ ", %rsp"
  ret := "ret"
  enter := ["pushq %rbp", "movq %rsp, %rbp"]
  reserve n := "subq $" ++ wordText n ++ ", %rsp"
  leave := ["leave"]
  dataSection := ".section .rodata"

/-- What comes before all functions: the first one is made visible. -/
def entry (first : Option Label) (s : Supply) : Code × Supply :=
  ([.plain ".text", .plain (".globl " ++ Label.render first)], s)

/-- The catalog over the given registers. -/
def catalog (regs : List Reg) (fp sp : Reg) : Catalog :=
  let base : Catalog := { name := "amd64", machine := regs ++ [fp, sp] }
  let base := { base with
    regs := regs.map some
    params := paramNames.map base.reg?
    callerSave := callerSaveNames.map base.reg?
    calleeSave := calleeSaveNames.map base.reg?
    result := base.reg? "%rax"
    imm := some ⟨-2147483648, 2147483647⟩ }
  base.addAll (values ++ actions)

/-- The target, with its registers made by the supply. -/
def make (s : Supply) : Target × Supply :=
  let (regs, s) := s.namedRegs regNames
  let (fp, s) := s.namedReg "%rbp"
  let (sp, s) := s.namedReg "%rsp"
  let catalog := catalog regs fp sp
  ({ catalog, dialect, fp, link := (catalog.reg? "%r10").getD fp, entry }, s)

end Codegen.Target.Amd64
