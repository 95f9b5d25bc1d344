import Codegen.Proofs.Assembly.Basic

/-!
# Instructions of the 64-bit ARM machine

The destination of an instruction stands before its sources. Shifts use the low six bits of their
count, and a division by zero gives zero. A load from `=c` gives the constant `c` itself.
-/

namespace Codegen.Assembly.Arm64

open Semantics

/-- The last source of an instruction. -/
inductive Operand
  | imm (v : Int64)
  | reg (r : Option Reg)
deriving DecidableEq, Repr

/-- What is loaded from. -/
inductive Source
  | const (v : Int64)
  /-- Memory at an offset from a register. -/
  | mem (base : Option Reg) (off : Int64)
  /-- Memory at a label. -/
  | sym (l : Option Label)
deriving DecidableEq, Repr

/-- An operation on two sources. -/
inductive Arith
  | add | sub | mul | sdiv | and | orr | eor | lsl | lsr | asr
deriving DecidableEq, Repr

/-- An instruction. -/
inductive Asm
  | ldr (dst : Option Reg) (src : Source)
  | str (src base : Option Reg) (off : Int64)
  | adr (dst : Option Reg) (l : Option Label)
  | mov (dst src : Option Reg)
  | arith (op : Arith) (dst x : Option Reg) (y : Operand)
  | cmp (x : Option Reg) (y : Operand)
  | b (l : Option Label)
  | br (r : Option Reg)
  | bcc (c : Cond) (l : Option Label)
  | place (l : Option Label)
deriving DecidableEq, Repr

/-! ### Reading -/

/-- The names of operations. -/
def arithNames : List (String × Arith) :=
  [("ADD", .add), ("SUB", .sub), ("MUL", .mul), ("SDIV", .sdiv), ("AND", .and), ("ORR", .orr),
    ("EOR", .eor), ("LSL", .lsl), ("LSR", .lsr), ("ASR", .asr)]

/-- The names of conditional jumps. -/
def jumpNames : List (String × Cond) :=
  [("B.EQ", .eq), ("B.NE", .ne), ("B.LT", .lt), ("B.LE", .le), ("B.GT", .gt), ("B.GE", .ge),
    ("B.LO", .ult), ("B.LS", .ule), ("B.HI", .ugt), ("B.HS", .uge)]

/-- The operation can have the last source: products and quotients are of registers only. -/
def Arith.takes : Arith → Operand → Bool
  | .mul, .imm _ | .sdiv, .imm _ => false
  | _, _ => true

/-- Read the last source of an instruction. -/
def operand? : List Token → Option Operand
  | [.reg r] => some (.reg r)
  | [.chr '#', .int v] => some (.imm v)
  | _ => none

/-- Read a place in memory that is given by a register. -/
def place? : List Token → Option (Option Reg × Int64)
  | [.chr '[', .reg base, .chr ']'] => some (base, 0)
  | [.chr '[', .reg base, .chr ',', .chr ' ', .chr '#', .int off, .chr ']'] => some (base, off)
  | _ => none

/-- Read what is loaded from. -/
def source? : List Token → Option Source
  | [.chr '=', .int v] => some (.const v)
  | [.lab l] => some (.sym l)
  | ts => (place? ts).map fun p => .mem p.1 p.2

/-- Read a register and what follows it. -/
def reg? : List Token → Option (Option Reg × List Token)
  | .reg r :: .chr ',' :: .chr ' ' :: ts => some (r, ts)
  | _ => none

/-- Read the operands of an operation. -/
def arith? (op : Arith) (ts : List Token) : Option Asm := do
  let (dst, ts) ← reg? ts
  let (x, ts) ← reg? ts
  let y ← operand? ts
  if op.takes y then some (.arith op dst x y) else none

/-- Read the operands of a named instruction. -/
def operands? (name : String) (ts : List Token) : Option Asm :=
  match name with
  | "LDR" => do
    let (dst, ts) ← reg? ts
    return .ldr dst (← source? ts)
  | "STR" => do
    let (src, ts) ← reg? ts
    let (base, off) ← place? ts
    return .str src base off
  | "ADR" =>
    match ts with
    | [.reg dst, .chr ',', .chr ' ', .lab l] => some (.adr dst l)
    | _ => none
  | "MOV" =>
    match ts with
    | [.reg dst, .chr ',', .chr ' ', .reg src] => some (.mov dst src)
    | _ => none
  | "CMP" => do
    let (x, ts) ← reg? ts
    return .cmp x (← operand? ts)
  | "B" =>
    match ts with
    | [.lab l] => some (.b l)
    | _ => none
  | "BR" =>
    match ts with
    | [.reg r] => some (.br r)
    | _ => none
  | _ =>
    match arithNames.lookup name, jumpNames.lookup name, ts with
    | some op, _, ts => arith? op ts
    | none, some c, [.lab l] => some (.bcc c l)
    | _, _, _ => none

/-! ### Running -/

/-- The outcome of an operation. -/
def Arith.apply : Arith → Int64 → Int64 → Int64
  | .add, x, y => x + y
  | .sub, x, y => x - y
  | .mul, x, y => x * y
  | .sdiv, x, y => if y = 0 then 0 else x / y
  | .and, x, y => x &&& y
  | .orr, x, y => x ||| y
  | .eor, x, y => x ^^^ y
  | .lsl, x, y => x <<< (y &&& 63)
  | .lsr, x, y => (x.toUInt64 >>> (y &&& 63).toUInt64).toInt64
  | .asr, x, y => x >>> (y &&& 63)

variable {Mem : Type} (I : Interp Mem)

/-- The value of the last source. -/
def value (m : Machine Mem) : Operand → Int64
  | .imm v => v
  | .reg r => m.regs r

/-- The value that is loaded. -/
def loaded (m : Machine Mem) : Source → Int64
  | .const v => v
  | .mem base off => I.load m.mem (m.regs base + off)
  | .sym l => I.load m.mem (I.addr l)

/-- What an instruction does. -/
def exec (a : Asm) (m : Machine Mem) : Option (Option Int64 × Machine Mem) :=
  match a with
  | .ldr dst src => some (none, m.setReg dst (loaded I m src))
  | .str src base off =>
    some (none, { m with mem := I.store m.mem (m.regs base + off) (m.regs src) })
  | .adr dst l => some (none, m.setReg dst (I.addr l))
  | .mov dst src => some (none, m.setReg dst (m.regs src))
  | .arith op dst x y => some (none, m.setReg dst (op.apply (m.regs x) (value m y)))
  | .cmp x y => some (none, { m with flags := some (.ofSub (m.regs x) (value m y)) })
  | .b l => some (some (I.addr l), m)
  | .br r => some (some (m.regs r), m)
  | .bcc c l => do
    let taken ← (← m.flags).test c
    return (if taken then some (I.addr l) else none, m)
  | .place _ => some (none, m)

theorem exec_bcc {I : Interp Mem} {m : Machine Mem} {x y : Int64} {c : Cond} {l : Option Label}
    (hm : m.flags = some (.ofSub x y)) (hc : c.isKnown = true) : exec I (.bcc c l) m =
      some (if I.holds c x y then some (I.addr l) else none, m) := by
  simp only [exec, hm, Flags.test_ofSub_of_isKnown I hc, Option.bind_eq_bind, Option.bind_some,
    Option.pure_def]

end Codegen.Assembly.Arm64

namespace Codegen.Assembly

/-- The 64-bit ARM machine. -/
abbrev arm64 : Isa where
  Asm := Arm64.Asm
  place := .place
  operands? := Arm64.operands?
  exec I _ := Arm64.exec I

end Codegen.Assembly
