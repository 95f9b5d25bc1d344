/-!
# Operators and conditions

Binary operators and comparison conditions of the tree language, over 64-bit two's complement
words. An operator is named by a small number; numbers that name nothing are kept as `unknown`, so
that a tree holding one can still be printed and refused where its meaning is asked for.
-/

namespace Codegen

/-- A binary operator on words. -/
inductive Op
  | add | sub | mul | div | and | or | xor | shl | shr | sar
  | unknown (code : Int)
deriving DecidableEq, Repr, Inhabited

namespace Op

/-- The operators in the order of their numbers. -/
def all : List Op := [add, sub, mul, div, and, or, xor, shl, shr, sar]

/-- The operator with the given number. -/
def ofCode (code : Int) : Op :=
  if code < 0 then unknown code else all.getD code.toNat (unknown code)

/-- The number of an operator. -/
def code : Op → Int
  | add => 0 | sub => 1 | mul => 2 | div => 3 | and => 4
  | or => 5 | xor => 6 | shl => 7 | shr => 8 | sar => 9
  | unknown c => c

/-- Whether the operator is one of the ten known ones. -/
def isKnown : Op → Bool
  | unknown _ => false
  | _ => true

/-- The operator's sign as trees are printed. -/
def symbol : Op → String
  | add => "+" | sub => "-" | mul => "*" | div => "/" | and => "&"
  | or => "|" | xor => "^" | shl => "<<" | shr => ">>" | sar => ">>>"
  | unknown _ => "op?"

/-- The operator with the given sign. -/
def ofSymbol? (s : String) : Option Op :=
  all.find? (·.symbol == s)

/-- Whether the operands may be exchanged. -/
def isCommutative : Op → Bool
  | add | mul | and | or | xor => true
  | _ => false

/-- A shift moves by at least no and at most 63 places. -/
def inShiftRange (y : Int64) : Bool := 0 ≤ y && y ≤ 63

/-- The word `x op y`, if it is defined: division by zero and shifts out of range are not.
Division goes toward zero, and everything wraps. -/
def eval (op : Op) (x y : Int64) : Option Int64 :=
  match op with
  | add => some (x + y)
  | sub => some (x - y)
  | mul => some (x * y)
  | div => if y = 0 then none else some (x / y)
  | and => some (x &&& y)
  | or => some (x ||| y)
  | xor => some (x ^^^ y)
  | shl => if inShiftRange y then some (x <<< y) else none
  | shr => if inShiftRange y then some (x.toUInt64 >>> y.toUInt64).toInt64 else none
  | sar => if inShiftRange y then some (x >>> y) else none
  | unknown _ => none

end Op

/-- A comparison of two words; the last four of the known ones compare without sign. -/
inductive Cond
  | eq | ne | lt | le | gt | ge | ult | ule | ugt | uge
  | unknown (code : Int)
deriving DecidableEq, Repr, Inhabited

namespace Cond

/-- The conditions in the order of their numbers. -/
def all : List Cond := [eq, ne, lt, le, gt, ge, ult, ule, ugt, uge]

/-- The condition with the given number. -/
def ofCode (code : Int) : Cond :=
  if code < 0 then unknown code else all.getD code.toNat (unknown code)

/-- The number of a condition. -/
def code : Cond → Int
  | eq => 0 | ne => 1 | lt => 2 | le => 3 | gt => 4
  | ge => 5 | ult => 6 | ule => 7 | ugt => 8 | uge => 9
  | unknown c => c

/-- Whether the condition is one of the ten known ones. -/
def isKnown : Cond → Bool
  | unknown _ => false
  | _ => true

/-- The condition's sign as trees are printed. -/
def symbol : Cond → String
  | eq => "==" | ne => "!=" | lt => "<" | le => "<=" | gt => ">"
  | ge => ">=" | ult => "u<" | ule => "u<=" | ugt => "u>" | uge => "u>="
  | unknown _ => "cond?"

/-- The condition with the given sign. -/
def ofSymbol? (s : String) : Option Cond :=
  all.find? (·.symbol == s)

/-- The condition that holds exactly when this one does not; an unknown one has none. -/
def inverse? : Cond → Option Cond
  | eq => some ne | ne => some eq
  | lt => some ge | ge => some lt
  | le => some gt | gt => some le
  | ult => some uge | uge => some ult
  | ule => some ugt | ugt => some ule
  | unknown _ => none

/-- Whether the condition holds between two words; an unknown one has no answer. -/
def holds? (c : Cond) (x y : Int64) : Option Bool :=
  match c with
  | eq => some (x == y)
  | ne => some (x != y)
  | lt => some (decide (x < y))
  | le => some (decide (x ≤ y))
  | gt => some (decide (y < x))
  | ge => some (decide (y ≤ x))
  | ult => some (decide (x.toUInt64 < y.toUInt64))
  | ule => some (decide (x.toUInt64 ≤ y.toUInt64))
  | ugt => some (decide (y.toUInt64 < x.toUInt64))
  | uge => some (decide (y.toUInt64 ≤ x.toUInt64))
  | unknown _ => none

end Cond

end Codegen
