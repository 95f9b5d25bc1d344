import Codegen.Proofs.Assembly.Basic
import Mathlib.Algebra.Group.Int.Defs
import Mathlib.Data.Option.Basic

/-!
# Instructions of the 64-bit x86 machine

The instructions are read in the syntax of the GNU assembler, with the source before the destination.
Shifts use the low six bits of their count. A division divides the double word in `%rdx` and `%rax`,
and has no outcome if the quotient does not fit into a word; behind a sign extension this is the
division of words (`divide_sign`).
-/

namespace Codegen.Assembly.Amd64

open Semantics

/-- What an instruction works on. -/
inductive Operand
  | imm (v : Int64)
  | reg (r : Option Reg)
  /-- The low byte of `%rcx`. -/
  | count
  /-- Memory at an offset from a register. -/
  | mem (base : Option Reg) (off : Int64)
  /-- Memory at a label. -/
  | sym (l : Option Label)
  /-- Memory at a fixed address. -/
  | abs (a : Int64)
deriving DecidableEq, Repr

/-- An operation on the destination. -/
inductive Arith
  | add | sub | imul | and | or | xor | sal | shr | sar
deriving DecidableEq, Repr

/-- An instruction. -/
inductive Asm
  | mov (src dst : Operand)
  | lea (src dst : Operand)
  | arith (op : Arith) (src dst : Operand)
  /-- Extend the sign of `%rax` into `%rdx`. -/
  | cqto
  | idiv (src : Operand)
  | cmp (src dst : Operand)
  | jmp (l : Option Label)
  | jmpTo (r : Option Reg)
  | jcc (c : Cond) (l : Option Label)
  | place (l : Option Label)
deriving DecidableEq, Repr

/-! ### Reading -/

/-- The names of operations on the destination. -/
def arithNames : List (String × Arith) :=
  [("addq", .add), ("subq", .sub), ("imulq", .imul), ("andq", .and), ("orq", .or), ("xorq", .xor),
    ("salq", .sal), ("shrq", .shr), ("sarq", .sar)]

/-- The names of conditional jumps. -/
def jumpNames : List (String × Cond) :=
  [("je", .eq), ("jne", .ne), ("jl", .lt), ("jle", .le), ("jg", .gt), ("jge", .ge), ("jb", .ult),
    ("jbe", .ule), ("ja", .ugt), ("jae", .uge)]

/-- The operand is in memory. -/
def Operand.isMem : Operand → Bool
  | .mem .. | .sym _ | .abs _ => true
  | _ => false

/-- The operand can be a destination. -/
def Operand.isPlace : Operand → Bool
  | .reg _ => true
  | o => o.isMem

/-- The operation can have the source: shifts take a constant or a count, the others all else. -/
def Arith.takes : Arith → Operand → Bool
  | .sal, .imm _ | .shr, .imm _ | .sar, .imm _ => true
  | .sal, o | .shr, o | .sar, o => o == .count
  | _, o => o != .count

/-- Read an operand. -/
def operand? : List Token → Option (Operand × List Token)
  | .chr '$' :: .int v :: ts => some (.imm v, ts)
  | .reg r :: ts => some (.reg r, ts)
  | .chr '%' :: .chr 'c' :: .chr 'l' :: ts => some (.count, ts)
  | .chr '(' :: .reg r :: .chr ')' :: ts => some (.mem r 0, ts)
  | .int v :: .chr '(' :: .reg r :: .chr ')' :: ts => some (.mem r v, ts)
  | .lab l :: .chr '(' :: .chr '%' :: .chr 'r' :: .chr 'i' :: .chr 'p' :: .chr ')' :: ts =>
    some (.sym l, ts)
  | .int v :: ts => some (.abs v, ts)
  | _ => none

/-- Read a single operand. -/
def single? (ts : List Token) : Option Operand :=
  match operand? ts with
  | some (o, []) => some o
  | _ => none

/-- Read a source and a destination, of which at most one is in memory. -/
def pair? (ts : List Token) : Option (Operand × Operand) :=
  match operand? ts with
  | some (src, .chr ',' :: .chr ' ' :: ts) =>
    match single? ts with
    | some dst => if dst.isPlace && !(src.isMem && dst.isMem) then some (src, dst) else none
    | none => none
  | _ => none

/-- Read the operands of a named instruction. -/
def operands? (name : String) (ts : List Token) : Option Asm :=
  match name with
  | "movq" =>
    match pair? ts with
    | some (src, dst) => if src = .count then none else some (.mov src dst)
    | none => none
  | "movabsq" =>
    match pair? ts with
    | some (.imm v, .reg r) => some (.mov (.imm v) (.reg r))
    | _ => none
  | "leaq" =>
    match pair? ts with
    | some (src, .reg r) => if src.isMem then some (.lea src (.reg r)) else none
    | _ => none
  | "cmpq" =>
    match pair? ts with
    | some (src, dst) => if src = .count then none else some (.cmp src dst)
    | none => none
  | "idivq" =>
    match single? ts with
    | some src => if src.isPlace then some (.idiv src) else none
    | none => none
  | "cqto" => if ts = [] then some .cqto else none
  | "jmp" =>
    match ts with
    | [.lab l] => some (.jmp l)
    | [.chr '*', .reg r] => some (.jmpTo r)
    | _ => none
  | _ =>
    match arithNames.lookup name, jumpNames.lookup name, ts with
    | some op, _, ts =>
      match pair? ts with
      | some (src, dst) => if op.takes src then some (.arith op src dst) else none
      | none => none
    | none, some c, [.lab l] => some (.jcc c l)
    | _, _, _ => none

/-! ### Running -/

/-- The outcome of an operation on a destination `x` with a source `y`. -/
def Arith.apply : Arith → Int64 → Int64 → Int64
  | .add, x, y => x + y
  | .sub, x, y => x - y
  | .imul, x, y => x * y
  | .and, x, y => x &&& y
  | .or, x, y => x ||| y
  | .xor, x, y => x ^^^ y
  | .sal, x, y => x <<< (y &&& 63)
  | .shr, x, y => (x.toUInt64 >>> (y &&& 63).toUInt64).toInt64
  | .sar, x, y => x >>> (y &&& 63)

variable {Mem : Type} (I : Interp Mem) (named : String → Option Reg)

/-- The address of an operand in memory. -/
def address (m : Machine Mem) : Operand → Option Int64
  | .mem base off => some (m.regs base + off)
  | .sym l => some (I.addr l)
  | .abs a => some a
  | _ => none

/-- The value of an operand. -/
def value (m : Machine Mem) : Operand → Option Int64
  | .imm v => some v
  | .reg r => some (m.regs r)
  | .count => some (m.regs (named "%rcx") &&& 255)
  | o => (address I m o).map (I.load m.mem)

/-- Write to an operand. -/
def write (m : Machine Mem) (v : Int64) : Operand → Option (Machine Mem)
  | .reg r => some (m.setReg r v)
  | o => (address I m o).map fun a => { m with mem := I.store m.mem a v }

/-- Divide the double word with the given halves. -/
def divide (hi lo y : Int64) : Option (Int64 × Int64) :=
  let n : Int := hi.toInt * 2 ^ 64 + lo.toUInt64.toNat
  let q := n.tdiv y.toInt
  if y = 0 ∨ (Int64.ofInt q).toInt ≠ q then none else some (.ofInt q, .ofInt (n.tmod y.toInt))

/-- What an instruction does. -/
def exec (a : Asm) (m : Machine Mem) : Option (Option Int64 × Machine Mem) :=
  match a with
  | .mov src dst => do
    let m ← write I m (← value I named m src) dst
    return (none, m)
  | .lea src dst => do
    let m ← write I m (← address I m src) dst
    return (none, m)
  | .arith op src dst => do
    let m ← write I m (op.apply (← value I named m dst) (← value I named m src)) dst
    return (none, { m with flags := none })
  | .cqto =>
    some (none, m.setReg (named "%rdx") (if m.regs (named "%rax") < 0 then -1 else 0))
  | .idiv src => do
    let y ← value I named m src
    let (q, r) ← divide (m.regs (named "%rdx")) (m.regs (named "%rax")) y
    return (none, { (m.setReg (named "%rax") q).setReg (named "%rdx") r with flags := none })
  | .cmp src dst => do
    let flags := Flags.ofSub (← value I named m dst) (← value I named m src)
    return (none, { m with flags := some flags })
  | .jmp l => some (some (I.addr l), m)
  | .jmpTo r => some (some (m.regs r), m)
  | .jcc c l => do
    let taken ← (← m.flags).test c
    return (if taken then some (I.addr l) else none, m)
  | .place _ => some (none, m)

section

variable {I} {named} {m m' : Machine Mem} {src dst : Operand} {x y : Int64}

theorem exec_arith {op : Arith} (hx : value I named m dst = some x) (hy : value I named m src = some y)
    (hw : write I m (op.apply x y) dst = some m') :
    exec I named (.arith op src dst) m = some (none, { m' with flags := none }) := by
  simp only [exec, hx, hy, hw, Option.bind_eq_bind, Option.bind_some, Option.pure_def]

theorem exec_idiv {q r : Int64} (hy : value I named m src = some y)
    (hq : divide (m.regs (named "%rdx")) (m.regs (named "%rax")) y = some (q, r)) :
    exec I named (.idiv src) m =
      some (none, { (m.setReg (named "%rax") q).setReg (named "%rdx") r with flags := none }) := by
  simp only [exec, hy, hq, Option.bind_eq_bind, Option.bind_some, Option.pure_def]

theorem exec_cmp (hx : value I named m dst = some x) (hy : value I named m src = some y) :
    exec I named (.cmp src dst) m = some (none, { m with flags := some (.ofSub x y) }) := by
  simp only [exec, hx, hy, Option.bind_eq_bind, Option.bind_some, Option.pure_def]

theorem exec_jcc (named : String → Option Reg) {c : Cond} {l : Option Label}
    (hm : m.flags = some (.ofSub x y)) (hc : c.isKnown = true) : exec I named (.jcc c l) m =
      some (if I.holds c x y then some (I.addr l) else none, m) := by
  simp only [exec, hm, Flags.test_ofSub_of_isKnown I hc, Option.bind_eq_bind, Option.bind_some,
    Option.pure_def]

end

end Codegen.Assembly.Amd64

namespace Codegen.Assembly

/-- The 64-bit x86 machine. -/
abbrev amd64 : Isa where
  Asm := Amd64.Asm
  place := .place
  operands? := Amd64.operands?
  exec := Amd64.exec

namespace Amd64

/-! ### Division -/

/-- A word and its sign are the halves of a double word with the same value. -/
theorem double_sign (x : Int64) :
    (if x < 0 then -1 else 0 : Int64).toInt * 2 ^ 64 + x.toUInt64.toNat = x.toInt := by
  have hx : x.toInt = if 2 * x.toUInt64.toNat < 2 ^ 64 then (x.toUInt64.toNat : Int)
      else x.toUInt64.toNat - (2 ^ 64 : Nat) := BitVec.toInt_eq_toNat_cond x.toBitVec
  have hlt : x.toUInt64.toNat < 2 ^ 64 := x.toUInt64.toNat_lt
  have h0 : (0 : Int64).toInt = 0 := by decide
  have h1 : (-1 : Int64).toInt = -1 := by decide
  by_cases hneg : x < 0
  · rw [if_pos hneg, h1]
    rw [Int64.lt_iff_toInt_lt, h0] at hneg
    split at hx <;> omega
  · rw [if_neg hneg, h0]
    rw [Int64.lt_iff_toInt_lt, h0] at hneg
    split at hx <;> omega

/-- Behind a sign extension, a double word is divided like the word, unless that overflows. -/
theorem divide_sign {x y : Int64} (hy : y ≠ 0) (hmin : ¬ (x = Int64.minValue ∧ y = -1)) :
    divide (if x < 0 then -1 else 0) x y = some (x / y, .ofInt (x.toInt.tmod y.toInt)) := by
  have hq : (x / y).toInt = x.toInt.tdiv y.toInt := by
    by_cases hx : x = Int64.minValue
    · exact Int64.toInt_div_of_ne_right x y fun h => hmin ⟨hx, h⟩
    · exact Int64.toInt_div_of_ne_left x y hx
  unfold divide
  simp only [double_sign, ← hq, Int64.ofInt_toInt]
  rw [if_neg (by simp [hy])]

end Amd64

end Codegen.Assembly
