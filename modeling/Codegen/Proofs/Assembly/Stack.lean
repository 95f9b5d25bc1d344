import Codegen.Proofs.Selection.Filling
import Codegen.Proofs.Target

/-!
# Instructions on the stack

The instructions around calls and at the begin of functions: copies, changes of a pointer by a
constant, and pushes. They name the stack pointer and the frame pointer in their text, where a name
stands for the register that the catalog knows by it. `Runs` says that code is read as such
instructions and what holds after it; there is a rule for each way to put code together, and one for
each of the assembler's words that a target has for calls (`readsAs_copy`, `readsAs_push`, …).
-/

namespace Codegen

open List

namespace Arch

/-- The words of the assembler. -/
def dialect : Arch → Dialect
  | .amd64 => Target.Amd64.dialect
  | .arm64 => Target.Arm64.dialect

theorem dialect_make (a : Arch) (s : Supply) : (a.make s).1.dialect = a.dialect := by
  cases a <;> rfl

/-- The name of the stack pointer. -/
def spName : Arch → String
  | .amd64 => "%rsp"
  | .arm64 => "SP"

/-- The name of the frame pointer. -/
def fpName : Arch → String
  | .amd64 => "%rbp"
  | .arm64 => "FP"

end Arch

namespace Assembly.Stack

open Selection.Draft

/-! ### Memory -/

/-- Words of eight bytes at two addresses have no byte in common. -/
def Apart (a b : Int64) : Prop := 8 ≤ (b - a).toInt.natAbs

/-- Memory, seen through its words. -/
structure Memory (Mem : Type) where
  load : Mem → Int64 → Int64
  store : Mem → Int64 → Int64 → Mem
  load_store : ∀ mem a v, load (store mem a v) a = v
  load_store_of_apart : ∀ mem a b v, Apart a b → load (store mem a v) b = load mem b

/-- The memory with a word of its own at each address. -/
def Memory.separate : Memory (Int64 → Int64) where
  load mem a := mem a
  store mem a v := Function.update mem a v
  load_store mem a v := Function.update_self a v mem
  load_store_of_apart mem a b v h := by
    refine Function.update_of_ne ?_ v mem
    rintro rfl
    rw [Apart, Int64.sub_self] at h
    exact absurd h (by decide)

/-- Store words one after the other. -/
def Memory.storeAll {Mem : Type} (M : Memory Mem) (mem : Mem) (a : Int64) : List Int64 → Mem
  | [] => mem
  | v :: vs => M.storeAll (M.store mem a v) (a + 8) vs

/-! ### Reading -/

/-- An instruction. -/
inductive Asm
  | place (l : Option Label)
  | move (dst src : Option Reg)
  /-- Add a constant to a register. -/
  | add (r : Option Reg) (v : Int64)
  /-- Lower a pointer and store registers from there on. -/
  | push (base : Option Reg) (bytes : Int64) (rs : List (Option Reg))
deriving DecidableEq, Repr

/-- The letters and digits in front, and what follows them. -/
def name : List Token → List Char × List Token
  | .chr c :: ts =>
    if c.isAlphanum || c = '%' then (c :: (name ts).1, (name ts).2) else ([], .chr c :: ts)
  | ts => ([], ts)

/-- Read a register, by its slot or by its name. -/
def register? (named : String → Option Reg) : List Token → Option (Option Reg × List Token)
  | .reg r :: ts => some (r, ts)
  | ts => if (name ts).1 = [] then none else some (named (String.ofList (name ts).1), (name ts).2)

/-- Read a comma. -/
def comma? : List Token → Option (List Token)
  | .chr ',' :: .chr ' ' :: ts => some ts
  | _ => none

/-- Read a register at the end. -/
def last? (named : String → Option Reg) (ts : List Token) : Option (Option Reg) :=
  match register? named ts with
  | some (r, []) => some r
  | _ => none

/-- Read a constant and a register. -/
def increase? (named : String → Option Reg) : List Token → Option (Int64 × Option Reg)
  | .chr '$' :: .int v :: ts => do return (v, ← last? named (← comma? ts))
  | _ => none

/-- Read the operands of an instruction of the x86 machine. -/
def amd64? (named : String → Option Reg) (op : String) (ts : List Token) : Option Asm :=
  match op with
  | "movq" => do
    let (src, ts) ← register? named ts
    return .move (← last? named (← comma? ts)) src
  | "pushq" => do return .push (named "%rsp") 8 [← last? named ts]
  | "addq" => (increase? named ts).map fun p => .add p.2 p.1
  | "subq" => (increase? named ts).map fun p => .add p.2 (-p.1)
  | _ => none

/-- Read a register that is written twice, and a constant. -/
def sum? (named : String → Option Reg) (ts : List Token) : Option (Option Reg × Int64) := do
  let (dst, ts) ← register? named ts
  let (src, ts) ← register? named (← comma? ts)
  match ← comma? ts with
  | [.chr '#', .int v] => if dst = src then some (dst, v) else none
  | _ => none

/-- Read a place in memory whose address is kept in the register it is given by. -/
def writeBack? (named : String → Option Reg) : List Token → Option (Option Reg × Int64)
  | .chr '[' :: ts => do
    let (base, ts) ← register? named ts
    match ← comma? ts with
    | [.chr '#', .int v, .chr ']', .chr '!'] => some (base, v)
    | _ => none
  | _ => none

/-- Read the operands of an instruction of the ARM machine. -/
def arm64? (named : String → Option Reg) (op : String) (ts : List Token) : Option Asm :=
  match op with
  | "MOV" => do
    let (dst, ts) ← register? named ts
    return .move dst (← last? named (← comma? ts))
  | "ADD" => (sum? named ts).map fun p => .add p.1 p.2
  | "SUB" => (sum? named ts).map fun p => .add p.1 (-p.2)
  | "STR" => do
    let (r, ts) ← register? named ts
    let (base, v) ← writeBack? named (← comma? ts)
    return .push base (-v) [r]
  | "STP" => do
    let (r, ts) ← register? named ts
    let (r', ts) ← register? named (← comma? ts)
    let (base, v) ← writeBack? named (← comma? ts)
    return .push base (-v) [r, r']
  | _ => none

/-- Read a label or an instruction. -/
def read (a : Arch) (named : String → Option Reg) : List Token → Option Asm
  | [.lab l, .chr ':'] => some (.place l)
  | ts =>
    match a with
    | .amd64 => amd64? named (String.ofList (word ts).1) (word ts).2
    | .arm64 => arm64? named (String.ofList (word ts).1) (word ts).2

/-- The text of an instruction is read as an instruction on the stack. -/
def ReadsAs (a : Arch) (named : String → Option Reg) (x : Instr) (i : Asm) : Prop :=
  ∃ ts, Spells x ts x.text.toList ∧ read a named ts = some i

/-! ### Running -/

variable {Mem : Type} (M : Memory Mem)

/-- What an instruction does. Flags are not known afterwards. -/
def exec : Asm → Machine Mem → Machine Mem
  | .place _, m => m
  | .move dst src, m => m.setReg dst (m.regs src)
  | .add r v, m => { m.setReg r (m.regs r + v) with flags := none }
  | .push base bytes rs, m =>
    let a := m.regs base - bytes
    { m.setReg base a with mem := M.storeAll m.mem a (rs.map m.regs) }

/-- What a call does before the callee begins: one machine pushes the return address, the other one
keeps it in a register. -/
def call (a : Arch) (named : String → Option Reg) (ret : Int64) (m : Machine Mem) : Machine Mem :=
  match a with
  | .amd64 =>
    let top := m.regs (named "%rsp") - 8
    { m.setReg (named "%rsp") top with mem := M.store m.mem top ret }
  | .arm64 => m.setReg (named "LR") ret

variable (a : Arch) (named : String → Option Reg)

/-- The code is read as instructions on the stack, and `Q` holds after they were run from `m`. -/
def Runs (code : Code) (m : Machine Mem) (Q : Machine Mem → Prop) : Prop :=
  ∃ as, List.Forall₂ (ReadsAs a named) code as ∧ Q (as.foldl (fun m i => exec M i m) m)

variable {M a named} {code code' : Code} {m : Machine Mem} {Q Q' : Machine Mem → Prop}

theorem Runs.mono (h : Runs M a named code m Q) (hQ : ∀ m', Q m' → Q' m') :
    Runs M a named code m Q' := by
  obtain ⟨as, h1, h2⟩ := h
  exact ⟨as, h1, hQ _ h2⟩

theorem runs_nil (h : Q m) : Runs M a named [] m Q := ⟨[], .nil, h⟩

theorem runs_cons {x : Instr} {i : Asm} (hx : ReadsAs a named x i)
    (h : Runs M a named code (exec M i m) Q) : Runs M a named (x :: code) m Q := by
  obtain ⟨as, h1, h2⟩ := h
  exact ⟨i :: as, .cons hx h1, h2⟩

theorem runs_append (h : Runs M a named code m fun m' => Runs M a named code' m' Q) :
    Runs M a named (code ++ code') m Q := by
  obtain ⟨as, h1, bs, h2, h3⟩ := h
  exact ⟨as ++ bs, rel_append h1 h2, by rwa [foldl_append]⟩

/-! ### The words of the assembler -/

variable {x : Instr}

theorem spells_read {r : Option Reg} (h : x.reads[0]? = some r) :
    Spells x [.reg r] "&i0".toList :=
  Spells.read (writes_toString 0) h .nil

theorem spells_write {r : Option Reg} (h : x.writes[0]? = some r) :
    Spells x [.reg r] "&o0".toList :=
  Spells.write (writes_toString 0) h .nil

theorem readsAs_of_spells {ts : List Token} {cs : List Char} {i : Asm} (text : String)
    (ht : x.text = text) (h : Spells x ts cs) (hc : text.toList = cs)
    (hr : read a named ts = some i) : ReadsAs a named x i :=
  ⟨ts, by rwa [ht, hc], hr⟩

theorem readsAs_copy (dst src : Option Reg) :
    ReadsAs a named (.copy a.dialect.copy dst src) (.move dst src) := by
  have hsrc : Spells (.copy a.dialect.copy dst src) [.reg src] "&i0".toList := spells_read rfl
  have hdst : Spells (.copy a.dialect.copy dst src) [.reg dst] "&o0".toList := spells_write rfl
  cases a
  case amd64 =>
    exact readsAs_of_spells "movq &i0, &o0" rfl ((spells_chars _ "movq ".toList).append
      (hsrc.append ((spells_chars _ ", ".toList).append hdst))) (by rfl) rfl
  case arm64 =>
    exact readsAs_of_spells "MOV &o0, &i0" rfl ((spells_chars _ "MOV ".toList).append
      (hdst.append ((spells_chars _ ", ".toList).append hsrc))) (by rfl) rfl

theorem readsAs_place (l : Label) : ReadsAs a named (.place l) (.place (some l)) :=
  readsAs_of_spells (l.text ++ ":") rfl (.lab (l := some l) (spells_chars _ ":".toList))
    String.toList_append rfl

theorem readsAs_push (r : Option Reg) :
    ReadsAs a named { text := a.dialect.push, reads := [r] }
      (.push (named a.spName) (Int64.ofNat a.dialect.stackStep) [r]) := by
  have hr : Spells { text := a.dialect.push, reads := [r] } [.reg r] "&i0".toList :=
    spells_read rfl
  cases a
  case amd64 =>
    exact readsAs_of_spells "pushq &i0" rfl ((spells_chars _ "pushq ".toList).append hr)
      (by rfl) rfl
  case arm64 =>
    exact readsAs_of_spells "STR &i0, [SP, #-16]!" rfl ((spells_chars _ "STR ".toList).append
      (hr.append ((spells_chars _ ", [SP, #".toList).append ((spells_int _ (-16)).append
        (spells_chars _ "]!".toList))))) (by rfl) rfl

/-- A number of bytes is written as a word is. -/
theorem toString_eq_wordText {n : Nat} (h : n < 2 ^ 63) : toString n = wordText (Int64.ofNat n) := by
  rw [wordText, Int64.toInt_ofNat_of_lt h]
  rfl

theorem readsAs_drop {n : Nat} (h : n < 2 ^ 63) :
    ReadsAs a named (.plain (a.dialect.drop n)) (.add (named a.spName) (Int64.ofNat n)) := by
  have hn {x : Instr} : Spells x [.int (Int64.ofNat n)] (toString n).toList := by
    rw [toString_eq_wordText h]
    exact spells_int _ _
  cases a
  case amd64 =>
    exact readsAs_of_spells ("addq $" ++ toString n ++ ", %rsp") rfl
      ((spells_chars _ "addq $".toList).append (hn.append (spells_chars _ ", %rsp".toList)))
      (by simp) rfl
  case arm64 =>
    exact readsAs_of_spells ("ADD SP, SP, #" ++ toString n) rfl
      ((spells_chars _ "ADD SP, SP, #".toList).append hn)
      String.toList_append (congrArg (Option.map _) (if_pos rfl))

theorem readsAs_reserve (v : Int64) :
    ReadsAs a named (.plain (a.dialect.reserve v)) (.add (named a.spName) (-v)) := by
  cases a
  case amd64 =>
    exact readsAs_of_spells ("subq $" ++ wordText v ++ ", %rsp") rfl
      ((spells_chars _ "subq $".toList).append
        ((spells_int _ v).append (spells_chars _ ", %rsp".toList)))
      (by simp) rfl
  case arm64 =>
    exact readsAs_of_spells ("SUB SP, SP, #" ++ wordText v) rfl
      ((spells_chars _ "SUB SP, SP, #".toList).append (spells_int _ v))
      String.toList_append (congrArg (Option.map _) (if_pos rfl))

theorem readsAs_pad {text : String} (h : a.dialect.pad = some text) :
    ReadsAs a named (.plain text) (.add (named a.spName) (-Int64.ofNat a.dialect.stackStep)) := by
  cases a
  case amd64 =>
    cases h
    exact readsAs_reserve (a := .amd64) 8
  case arm64 => cases h

/-- The instructions that set up the frame pointer. -/
def enter (named : String → Option Reg) : Arch → List Asm
  | .amd64 => [.push (named "%rsp") 8 [named "%rbp"], .move (named "%rbp") (named "%rsp")]
  | .arm64 => [.push (named "SP") 16 [named "FP", named "LR"], .move (named "FP") (named "SP")]

theorem readsAs_enter :
    List.Forall₂ (ReadsAs a named) (a.dialect.enter.map .plain) (enter named a) := by
  cases a
  case amd64 =>
    refine .cons ?_ (.cons ?_ .nil)
    · exact readsAs_of_spells "pushq %rbp" rfl (spells_chars _ "pushq %rbp".toList) rfl rfl
    · exact readsAs_of_spells "movq %rsp, %rbp" rfl (spells_chars _ "movq %rsp, %rbp".toList) rfl rfl
  case arm64 =>
    refine .cons ?_ (.cons ?_ .nil)
    · exact readsAs_of_spells "STP FP, LR, [SP, #-16]!" rfl
        ((spells_chars _ "STP FP, LR, [SP, #".toList).append
          ((spells_int _ (-16)).append (spells_chars _ "]!".toList))) (by rfl) rfl
    · exact readsAs_of_spells "MOV FP, SP" rfl (spells_chars _ "MOV FP, SP".toList) rfl rfl

/-! ### What code on the stack does -/

/-- Words that are at least eight bytes apart. -/
theorem apart_add (b : Int64) {n : Nat} (h8 : 8 ≤ n) (hn : n < 2 ^ 63) :
    Apart b (b + Int64.ofNat n) := by
  have hsub : b + Int64.ofNat n - b = Int64.ofNat n := by grind
  rw [Apart, hsub, Int64.toInt_ofNat_of_lt hn]
  exact h8

/-- Copies one after the other, from registers that none of them writes to different ones. -/
theorem runs_moves {ps : List (Option Reg × Option Reg)} (hdst : (ps.map (·.1)).Nodup)
    (hsrc : ∀ p ∈ ps, p.2 ∉ ps.map (·.1))
    (hQ : ∀ m' : Machine Mem, m'.mem = m.mem → (∀ p ∈ ps, m'.regs p.1 = m.regs p.2) →
      (∀ r, r ∉ ps.map (·.1) → m'.regs r = m.regs r) → Q m') :
    Runs M a named (ps.map fun p => a.dialect.move p.1 p.2) m Q := by
  induction ps generalizing m with
  | nil => exact runs_nil (hQ m rfl nofun fun _ _ => rfl)
  | cons p ps ih =>
    obtain ⟨dst, src⟩ := p
    rw [map_cons, nodup_cons] at hdst
    have hsrc' : ∀ p ∈ ps, p.2 ∉ ps.map (·.1) := fun p hp h =>
      hsrc p (mem_cons_of_mem _ hp) (mem_cons_of_mem _ h)
    refine runs_cons (readsAs_copy dst src) (ih hdst.2 hsrc' fun m' hmem hnew hold => ?_)
    have hset (r : Option Reg) (h : r ≠ dst) : (m.setReg dst (m.regs src)).regs r = m.regs r :=
      m.regs_setReg_of_ne h _
    refine hQ m' hmem ?_ fun r hr => ?_
    · rintro p (_ | ⟨_, hp⟩)
      · exact (hold dst hdst.1).trans (m.regs_setReg_self dst _)
      · refine (hnew p hp).trans (hset p.2 ?_)
        rintro rfl
        exact hsrc p (mem_cons_of_mem _ hp) mem_cons_self
    · rw [map_cons, mem_cons, not_or] at hr
      exact (hold r hr.2).trans (hset r hr.1)

variable (M a named) in
/-- Registers were pushed, the last one first. -/
structure Pushed (stack : List (Option Reg)) (m m' : Machine Mem) : Prop where
  sp : m'.regs (named a.spName) = m.regs (named a.spName) -
    Int64.ofNat stack.length * Int64.ofNat a.dialect.stackStep
  regs : ∀ r, r ≠ named a.spName → m'.regs r = m.regs r
  words : ∀ j r, stack[j]? = some r → M.load m'.mem (m'.regs (named a.spName) +
    Int64.ofNat j * Int64.ofNat a.dialect.stackStep) = m.regs r

theorem le_stackStep (a : Arch) : 8 ≤ a.dialect.stackStep := by cases a <;> decide

theorem Pushed.cons {stack : List (Option Reg)} {r : Option Reg} {m' : Machine Mem}
    (h : Pushed M a named stack m m') (hr : r ≠ named a.spName)
    (hroom : (stack.length + 1) * a.dialect.stackStep < 2 ^ 63) :
    Pushed M a named (r :: stack) m
      (exec M (.push (named a.spName) (Int64.ofNat a.dialect.stackStep) [r]) m') := by
  have hstep := le_stackStep a
  have hsucc (n : Nat) : Int64.ofNat (n + 1) = Int64.ofNat n + 1 := Int64.ofNat_add n 1
  refine ⟨?_, fun w hw => (m'.regs_setReg_of_ne hw _).trans (h.regs w hw), fun j w hj => ?_⟩
  · refine (m'.regs_setReg_self _ _).trans ?_
    rw [h.sp, length_cons, hsucc]
    grind
  · have htop : (exec M (.push (named a.spName) (Int64.ofNat a.dialect.stackStep) [r]) m').regs
        (named a.spName) = m'.regs (named a.spName) - Int64.ofNat a.dialect.stackStep :=
      m'.regs_setReg_self _ _
    rw [htop]
    cases j with
    | zero =>
      cases hj
      have hzero (b step : Int64) : b + Int64.ofNat 0 * step = b := by
        rw [show Int64.ofNat 0 = 0 from rfl]
        grind
      rw [hzero]
      exact (M.load_store _ _ _).trans (h.regs r hr)
    | succ j =>
      have hj' : stack[j]? = some w := hj
      obtain ⟨hlt, -⟩ := List.getElem?_eq_some_iff.mp hj'
      -- the words below are not touched
      have hle : (j + 1) * a.dialect.stackStep ≤ (stack.length + 1) * a.dialect.stackStep :=
        Nat.mul_le_mul_right _ (by omega)
      have hge : a.dialect.stackStep ≤ (j + 1) * a.dialect.stackStep :=
        Nat.le_mul_of_pos_left _ (Nat.succ_pos j)
      rw [← Int64.ofNat_mul]
      refine (M.load_store_of_apart _ _ _ _ (apart_add _ (by omega) (by omega))).trans ?_
      rw [← h.words j w hj', Int64.ofNat_mul, hsucc]
      congr 1
      grind

theorem runs_pushes {stack : List (Option Reg)} (hsp : ∀ r ∈ stack, r ≠ named a.spName)
    (hroom : stack.length * a.dialect.stackStep < 2 ^ 63)
    (hQ : ∀ m', Pushed M a named stack m m' → Q m') :
    Runs M a named (stack.reverse.map fun r => { text := a.dialect.push, reads := [r] }) m Q := by
  induction stack generalizing Q with
  | nil => exact runs_nil (hQ m ⟨by simp, fun _ _ => rfl, nofun⟩)
  | cons r stack ih =>
    rw [reverse_cons, map_append]
    have hsp' := forall_mem_cons.mp hsp
    refine runs_append (ih hsp'.2 ?_ fun m' h => ?_)
    · exact lt_of_le_of_lt (Nat.mul_le_mul_right _ (Nat.le_succ _)) hroom
    · exact runs_cons (readsAs_push r) (runs_nil (hQ _ (h.cons hsp'.1 hroom)))

/-- A word above two words that are stored. -/
theorem load_store_store (mem : Mem) (b v w : Int64) {n : Nat} (h : n + 16 < 2 ^ 63) :
    M.load (M.store (M.store mem (b - 8) v) (b - 16) w) (b + Int64.ofNat n) =
      M.load mem (b + Int64.ofNat n) ∧
    M.load (M.store (M.store mem (b - 16) w) (b - 8) v) (b + Int64.ofNat n) =
      M.load mem (b + Int64.ofNat n) := by
  have hnear : Apart (b - 8) (b + Int64.ofNat n) := by
    have heq : b + Int64.ofNat n = b - 8 + Int64.ofNat (n + 8) := by
      rw [Int64.ofNat_add, show Int64.ofNat 8 = 8 from rfl]
      grind
    rw [heq]
    exact apart_add _ (by omega) (by omega)
  have hfar : Apart (b - 16) (b + Int64.ofNat n) := by
    have heq : b + Int64.ofNat n = b - 16 + Int64.ofNat (n + 16) := by
      rw [Int64.ofNat_add, show Int64.ofNat 16 = 16 from rfl]
      grind
    rw [heq]
    exact apart_add _ (by omega) (by omega)
  constructor
  · rw [M.load_store_of_apart _ _ _ _ hfar, M.load_store_of_apart _ _ _ _ hnear]
  · rw [M.load_store_of_apart _ _ _ _ hnear, M.load_store_of_apart _ _ _ _ hfar]

/-- A call, and the frame pointer set up by the callee: two words are stored below the stack, on
which the frame pointer stands then. -/
theorem runs_enter (ret : Int64) (hlr : named "LR" ≠ named a.spName)
    (hQ : ∀ m' : Machine Mem, m'.regs (named a.fpName) = m.regs (named a.spName) - 16 →
      (∀ r, r ≠ named a.spName → r ≠ named a.fpName → r ≠ named "LR" → m'.regs r = m.regs r) →
      (∀ n : Nat, n + 16 < 2 ^ 63 → M.load m'.mem (m.regs (named a.spName) + Int64.ofNat n) =
        M.load m.mem (m.regs (named a.spName) + Int64.ofNat n)) → Q m') :
    Runs M a named (a.dialect.enter.map .plain) (call M a named ret m) Q := by
  refine ⟨_, readsAs_enter, ?_⟩
  cases a
  case amd64 =>
    have htop : m.regs (named "%rsp") - 8 - 8 = m.regs (named "%rsp") - 16 := by grind
    have hsp : (call M .amd64 named ret m).regs (named "%rsp") = m.regs (named "%rsp") - 8 :=
      m.regs_setReg_self _ _
    refine hQ _ ?_ ?_ ?_
    · refine (Machine.regs_setReg_self _ _ _).trans ((Machine.regs_setReg_self _ _ _).trans ?_)
      rw [hsp, htop]
      rfl
    · intro r h1 h2 _
      refine (Machine.regs_setReg_of_ne _ h2 _).trans ((Machine.regs_setReg_of_ne _ h1 _).trans ?_)
      exact Machine.regs_setReg_of_ne _ h1 _
    · intro n hn
      show M.load (M.store (M.store m.mem (m.regs (named "%rsp") - 8) ret)
        ((call M .amd64 named ret m).regs (named "%rsp") - 8) _) _ = _
      rw [hsp, htop]
      exact (load_store_store _ _ _ _ hn).1
  case arm64 =>
    have htop : m.regs (named "SP") - 16 + 8 = m.regs (named "SP") - 8 := by grind
    have hsp : (call M .arm64 named ret m).regs (named "SP") = m.regs (named "SP") :=
      m.regs_setReg_of_ne hlr.symm _
    refine hQ _ ?_ ?_ ?_
    · refine (Machine.regs_setReg_self _ _ _).trans ((Machine.regs_setReg_self _ _ _).trans ?_)
      rw [hsp]
      rfl
    · intro r h1 h2 h3
      refine (Machine.regs_setReg_of_ne _ h2 _).trans ((Machine.regs_setReg_of_ne _ h1 _).trans ?_)
      exact Machine.regs_setReg_of_ne _ h3 _
    · intro n hn
      show M.load (M.store (M.store m.mem ((call M .arm64 named ret m).regs (named "SP") - 16) _)
        ((call M .arm64 named ret m).regs (named "SP") - 16 + 8) _) _ = _
      rw [hsp, htop]
      exact (load_store_store _ _ _ _ hn).2

end Assembly.Stack

end Codegen
