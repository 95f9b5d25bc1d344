import Codegen.Instr
import Codegen.Proofs.Tree.Semantics

/-!
# Assembly code

The text of an instruction spells a list of tokens: characters, registers by their slots, constants
in decimal and labels by their names (`Spells`). An instruction set reads tokens as instructions
and says what those do to registers, memory and flags (`Isa`). A comparison leaves the flags of a
subtraction, from which every condition can be told (`Flags.test_ofSub`).
-/

namespace Codegen.Assembly

open Semantics List

/-! ### Flags -/

/-- What is known of the last subtraction. -/
structure Flags where
  zero : Bool
  sign : Bool
  /-- The first operand is below the second one, both taken without sign. -/
  borrow : Bool
  overflow : Bool
deriving DecidableEq, Repr

namespace Flags

/-- The flags of `x - y`. -/
def ofSub (x y : Int64) : Flags :=
  { zero := x - y == 0
    sign := x - y < 0
    borrow := x.toUInt64 < y.toUInt64
    overflow := (x - y).toInt != x.toInt - y.toInt }

/-- Whether the flags show a condition. -/
def test (f : Flags) : Cond → Option Bool
  | .eq => some f.zero
  | .ne => some !f.zero
  | .lt => some (f.sign != f.overflow)
  | .le => some (f.zero || f.sign != f.overflow)
  | .gt => some (!f.zero && f.sign == f.overflow)
  | .ge => some (f.sign == f.overflow)
  | .ult => some f.borrow
  | .ule => some (f.borrow || f.zero)
  | .ugt => some (!f.borrow && !f.zero)
  | .uge => some !f.borrow
  | .unknown _ => none

theorem zero_ofSub (x y : Int64) : (ofSub x y).zero = decide (x = y) := by
  show (x - y == 0) = decide (x = y)
  have h0 : (0 : Int64).toInt = 0 := by decide
  rw [Bool.eq_iff_iff, beq_iff_eq, decide_eq_true_eq, ← Int64.toInt_inj, ← Int64.toInt_inj,
    Int64.toInt_sub, Int.bmod_def, h0]
  have := x.le_toInt
  have := x.toInt_lt
  have := y.le_toInt
  have := y.toInt_lt
  split <;> omega

/-- The sign of a difference is wrong just if it overflows. -/
theorem sign_ne_overflow (x y : Int64) :
    ((ofSub x y).sign != (ofSub x y).overflow) = decide (x < y) := by
  show (decide (x - y < 0) != ((x - y).toInt != x.toInt - y.toInt)) = decide (x < y)
  have h0 : (0 : Int64).toInt = 0 := by decide
  rw [Bool.eq_iff_iff, bne_iff_ne, ne_eq, Bool.eq_iff_iff]
  simp only [bne_iff_ne, ne_eq, decide_eq_true_eq, Int64.lt_iff_toInt_lt, h0, Int64.toInt_sub,
    Int.bmod_def]
  have := x.le_toInt
  have := x.toInt_lt
  have := y.le_toInt
  have := y.toInt_lt
  split <;> omega

/-- After a comparison the flags show every condition that holds between its operands. -/
theorem test_ofSub (c : Cond) (x y : Int64) : (ofSub x y).test c = c.holds? x y := by
  have hz := zero_ofSub x y
  have hl := sign_ne_overflow x y
  have hb : (ofSub x y).borrow = decide (x.toUInt64 < y.toUInt64) := rfl
  have he : ((ofSub x y).sign == (ofSub x y).overflow) = !decide (x < y) := by
    rw [← hl, bne, Bool.not_not]
  have hs : x = y ↔ x.toInt = y.toInt := Int64.toInt_inj.symm
  have hu : x = y ↔ x.toUInt64.toNat = y.toUInt64.toNat := by
    rw [UInt64.toNat_inj]
    exact ⟨fun h => h ▸ rfl, fun h => by rw [← x.toInt64_toUInt64, h, y.toInt64_toUInt64]⟩
  cases c <;> simp only [test, Cond.holds?, hz, hl, he, hb]
  case eq | ne =>
    rw [Option.some.injEq, Bool.eq_iff_iff]
    simp
  case le | gt | ge =>
    rw [Option.some.injEq, Bool.eq_iff_iff]
    simp only [Bool.or_eq_true, Bool.and_eq_true, Bool.not_eq_true', decide_eq_true_eq,
      decide_eq_false_iff_not, hs, Int64.lt_iff_toInt_lt, Int64.le_iff_toInt_le]
    omega
  case ule | ugt | uge =>
    rw [Option.some.injEq, Bool.eq_iff_iff]
    simp only [Bool.or_eq_true, Bool.and_eq_true, Bool.not_eq_true', decide_eq_true_eq,
      decide_eq_false_iff_not, hu, UInt64.lt_iff_toNat_lt, UInt64.le_iff_toNat_le]
    omega

/-- After a comparison the flags show whether a known condition holds. -/
theorem test_ofSub_of_isKnown {Mem : Type} (I : Interp Mem) {c : Cond} (hc : c.isKnown = true)
    (x y : Int64) : (ofSub x y).test c = some (I.holds c x y) := by
  rw [test_ofSub, Interp.holds]
  cases c with
  | unknown => cases hc
  | _ => rfl

end Flags

/-! ### Operations -/

/-- An operation on words gives what an operator gives. -/
def Does (f : Int64 → Int64 → Int64) (o : Op) : Prop := ∀ x y w, o.eval x y = some w → f x y = w

/-- A count in range is given by its low six bits, and by its low byte. -/
theorem and_of_inShiftRange {y : Int64} (h : Op.inShiftRange y = true) :
    y &&& 63 = y ∧ y &&& 255 = y := by
  simp only [Op.inShiftRange, Bool.and_eq_true, decide_eq_true_eq, Int64.le_iff_toInt_le] at h
  have h0 : (0 : Int64).toInt = 0 := by decide
  have h63 : (63 : Int64).toInt = 63 := by decide
  obtain ⟨n, rfl⟩ : ∃ n : Fin 64, y = Int64.ofInt n.val :=
    ⟨⟨y.toInt.toNat, by omega⟩, by rw [Int.toNat_of_nonneg (by omega), Int64.ofInt_toInt]⟩
  have hall : ∀ n : Fin 64, Int64.ofInt n.val &&& 63 = Int64.ofInt n.val ∧
      Int64.ofInt n.val &&& 255 = Int64.ofInt n.val := by
    decide
  exact hall n

/-- A shift that sees the low six bits of its count. -/
theorem does_shift {o : Op} {f g : Int64 → Int64 → Int64}
    (ho : ∀ x y, o.eval x y = if Op.inShiftRange y then some (f x y) else none)
    (hg : ∀ x y, g x y = f x (y &&& 63)) : Does g o ∧ Does (fun x y => g x (y &&& 255)) o := by
  have hcount : ∀ {x y w}, o.eval x y = some w → y &&& 63 = y ∧ y &&& 255 = y ∧ f x y = w := by
    intro x y w h
    rw [ho] at h
    split at h
    · rename_i hy
      exact ⟨(and_of_inShiftRange hy).1, (and_of_inShiftRange hy).2, Option.some.inj h⟩
    · cases h
  constructor
  · intro x y w h
    obtain ⟨h6, -, hf⟩ := hcount h
    rw [hg, h6, hf]
  · intro x y w h
    obtain ⟨h6, h8, hf⟩ := hcount h
    show g x (y &&& 255) = w
    rw [h8, hg, h6, hf]

/-! ### Texts and what they spell -/

/-- A part of the text of an instruction. -/
inductive Token
  | chr (c : Char)
  | reg (r : Option Reg)
  | int (v : Int64)
  | lab (l : Option Label)
deriving DecidableEq, Repr

/-- The characters are digits and write the number. -/
def Writes (ds : List Char) (n : Nat) : Prop :=
  ds ≠ [] ∧ (∀ c ∈ ds, c.isDigit = true) ∧ Text.digitsValue ds = n

/-- Text of an instruction spells tokens: a slot stands for the register it refers to, a decimal
number for the word with its value, and a name for a label that is printed so. -/
inductive Spells (x : Instr) : List Token → List Char → Prop
  | nil : Spells x [] []
  | chr {c : Char} {ts : List Token} {cs : List Char} (h : Spells x ts cs) :
      Spells x (.chr c :: ts) (c :: cs)
  | read {i : Nat} {r : Option Reg} {ds : List Char} {ts : List Token} {cs : List Char}
      (hi : Writes ds i) (hr : x.reads[i]? = some r) (h : Spells x ts cs) :
      Spells x (.reg r :: ts) ('&' :: 'i' :: ds ++ cs)
  | write {i : Nat} {r : Option Reg} {ds : List Char} {ts : List Token} {cs : List Char}
      (hi : Writes ds i) (hr : x.writes[i]? = some r) (h : Spells x ts cs) :
      Spells x (.reg r :: ts) ('&' :: 'o' :: ds ++ cs)
  | int {v : Int64} {ds : List Char} {ts : List Token} {cs : List Char}
      (hv : Text.readInt? ds = some v.toInt) (h : Spells x ts cs) : Spells x (.int v :: ts) (ds ++ cs)
  | lab {l : Option Label} {ts : List Token} {cs : List Char} (h : Spells x ts cs) :
      Spells x (.lab l :: ts) ((Label.render l).toList ++ cs)

theorem Spells.append {x : Instr} {ts ts' : List Token} {cs cs' : List Char} (h : Spells x ts cs)
    (h' : Spells x ts' cs') : Spells x (ts ++ ts') (cs ++ cs') := by
  induction h with
  | nil => exact h'
  | chr _ ih => exact .chr ih
  | read hi hr _ ih =>
    simp only [cons_append, append_assoc]
    exact .read hi hr ih
  | write hi hr _ ih =>
    simp only [cons_append, append_assoc]
    exact .write hi hr ih
  | int hv _ ih =>
    simp only [cons_append, append_assoc]
    exact .int hv ih
  | lab _ ih =>
    simp only [cons_append, append_assoc]
    exact .lab ih

theorem spells_chars (x : Instr) (cs : List Char) : Spells x (cs.map .chr) cs := by
  induction cs with
  | nil => exact .nil
  | cons c cs ih => exact .chr ih

/-! ### Instruction sets -/

/-- Registers, memory and flags. Flags that are not known are left out. -/
structure Machine (Mem : Type) where
  regs : Option Reg → Int64
  mem : Mem
  flags : Option Flags := none

namespace Machine

variable {Mem : Type}

/-- Write a register. -/
def setReg (m : Machine Mem) (r : Option Reg) (v : Int64) : Machine Mem :=
  { m with regs := Function.update m.regs r v }

/-- What trees see of the machine. -/
def store (m : Machine Mem) : Store Mem := ⟨m.regs, m.mem, []⟩

@[simp] theorem regs_setReg_self (m : Machine Mem) (r : Option Reg) (v : Int64) :
    (m.setReg r v).regs r = v := Function.update_self ..

theorem regs_setReg_of_ne (m : Machine Mem) {r w : Option Reg} (h : w ≠ r) (v : Int64) :
    (m.setReg r v).regs w = m.regs w := Function.update_of_ne h ..

end Machine

/-- An instruction set: how the text behind the name of an instruction is read, and what instructions
do, given the registers with fixed names. Control goes on to the next instruction or to an address;
there is no outcome where the machine gives none. -/
structure Isa where
  Asm : Type
  /-- A label stands before the next instruction. -/
  place : Option Label → Asm
  operands? : String → List Token → Option Asm
  exec {Mem : Type} : Interp Mem → (String → Option Reg) → Asm → Machine Mem →
    Option (Option Int64 × Machine Mem)

/-- The characters up to the first blank, and what follows the blank. -/
def word : List Token → List Char × List Token
  | .chr c :: ts => if c = ' ' then ([], ts) else (c :: (word ts).1, (word ts).2)
  | ts => ([], ts)

theorem word_append {cs : List Char} (h : ∀ c ∈ cs, c ≠ ' ') (ts : List Token) :
    word (cs.map .chr ++ .chr ' ' :: ts) = (cs, ts) := by
  induction cs with
  | nil => rfl
  | cons c cs ih =>
    rw [map_cons, cons_append, word, if_neg (h c mem_cons_self),
      ih fun c hc => h c (mem_cons_of_mem _ hc)]

namespace Isa

/-- Read a label or an instruction. -/
def read (isa : Isa) : List Token → Option isa.Asm
  | [.lab l, .chr ':'] => some (isa.place l)
  | ts => isa.operands? (String.ofList (word ts).1) (word ts).2

theorem read_word (isa : Isa) {name : String} (h : ∀ c ∈ name.toList, c ≠ ' ') (ts : List Token) :
    isa.read (name.toList.map .chr ++ .chr ' ' :: ts) = isa.operands? name ts := by
  rw [read, word_append h, String.ofList_toList]
  intro l hl
  cases hn : name.toList <;> simp [hn] at hl

variable {Mem : Type} (isa : Isa) (I : Interp Mem) (named : String → Option Reg)

/-- The text of an instruction is read as an instruction of the set. -/
def ReadsAs (x : Instr) (a : isa.Asm) : Prop :=
  ∃ ts, Spells x ts x.text.toList ∧ isa.read ts = some a

/-- Run instructions one after the other, up to the first transfer of control. -/
def run : List isa.Asm → Machine Mem → Option (Option Int64 × Machine Mem)
  | [], m => some (none, m)
  | a :: rest, m =>
    match isa.exec I named a m with
    | some (none, m) => run rest m
    | out => out

variable {isa I named}

theorem run_cons_of_next {a : isa.Asm} {as : List isa.Asm} {m m' : Machine Mem}
    (h : isa.exec I named a m = some (none, m')) :
    isa.run I named (a :: as) m = isa.run I named as m' := by
  rw [run, h]

theorem run_singleton (a : isa.Asm) (m : Machine Mem) :
    isa.run I named [a] m = isa.exec I named a m := by
  rw [run]
  split
  · rename_i m' h
    rw [h, run]
  · rfl

theorem run_append {as bs : List isa.Asm} {m m' : Machine Mem}
    (h : isa.run I named as m = some (none, m')) :
    isa.run I named (as ++ bs) m = isa.run I named bs m' := by
  induction as generalizing m with
  | nil =>
    cases h
    rfl
  | cons a as ih =>
    rw [run] at h
    split at h
    · rename_i m₁ ha
      rw [cons_append, run_cons_of_next ha, ih h]
    · rename_i hne
      exact absurd h (hne m')

end Isa

end Codegen.Assembly
