import Codegen.Block.Basic
import Mathlib.Logic.Function.Basic

/-!
# What trees mean

Trees run from left to right over registers and a memory. Addresses of labels, operators where they
are not defined, unknown conditions, access to memory and calls are arbitrary (`Interp`). A statement
ends by going on, or with a transfer of control (`Outcome`); what stands behind a transfer is not
run.
-/

namespace Codegen.Semantics

/-- What trees leave open, over memories `Mem`. -/
structure Interp (Mem : Type*) where
  addr : Option Label → Int64
  /-- An operator where it is not defined. -/
  op : Op → Int64 → Int64 → Int64
  /-- An unknown condition. -/
  cond : Cond → Int64 → Int64 → Bool
  load : Mem → Int64 → Int64
  store : Mem → Int64 → Int64 → Mem
  /-- A call of an address with arguments and, if it is passed, a link. -/
  call : Int64 → List Int64 → Option Int64 → Mem → Int64 × Mem

/-- A call that was made. -/
structure CallRecord where
  callee : Int64
  args : List Int64
  link : Option Int64
deriving DecidableEq, Repr

/-- Registers, memory and the calls that were made. -/
structure Store (Mem : Type*) where
  regs : Option Reg → Int64
  mem : Mem
  calls : List CallRecord

/-- How a statement ends: control goes on, to a label or to an address. -/
inductive Outcome
  | next
  | label (l : Option Label)
  | address (v : Int64)
deriving DecidableEq, Repr

variable {Mem : Type*} (I : Interp Mem)

namespace Store

/-- Write a register. -/
def setReg (σ : Store Mem) (r : Option Reg) (v : Int64) : Store Mem :=
  { σ with regs := Function.update σ.regs r v }

/-- Write memory. -/
def write (σ : Store Mem) (a v : Int64) : Store Mem := { σ with mem := I.store σ.mem a v }

end Store

namespace Interp

/-- An operator applied to two words. -/
def apply (op : Op) (x y : Int64) : Int64 := (op.eval x y).getD (I.op op x y)

/-- Whether a condition holds. -/
def holds (c : Cond) (x y : Int64) : Bool := (c.holds? x y).getD (I.cond c x y)

/-- Make a call. -/
def invoke (callee : Int64) (args : List Int64) (link : Option Int64) (σ : Store Mem) :
    Int64 × Store Mem :=
  let r := I.call callee args link σ.mem
  (r.1, { σ with mem := r.2, calls := σ.calls ++ [⟨callee, args, link⟩] })

end Interp

mutual

/-- The value of an expression, and the store behind it. -/
def eval : Expr → Store Mem → Int64 × Store Mem
  | .missing, σ => (0, σ)
  | .int v, σ => (v, σ)
  | .addr l, σ => (I.addr l, σ)
  | .temp r, σ => (σ.regs r, σ)
  | .bin op l r _, σ =>
    let x := eval l σ
    let y := eval r x.2
    (I.apply op x.1 y.1, y.2)
  | .mem a, σ =>
    let x := eval a σ
    (I.load x.2.mem x.1, x.2)
  | .call f args link, σ =>
    let x := eval f σ
    let xs := evalAll args x.2
    if link.isPresent then
      let l := eval link xs.2
      I.invoke x.1 xs.1 (some l.1) l.2
    else I.invoke x.1 xs.1 none xs.2
  | .eseq s v, σ => eval v (exec s σ).2

/-- The values of several expressions. -/
def evalAll : List Expr → Store Mem → List Int64 × Store Mem
  | [], σ => ([], σ)
  | e :: rest, σ =>
    let x := eval e σ
    let xs := evalAll rest x.2
    (x.1 :: xs.1, xs.2)

/-- How a statement ends, and the store behind it. -/
def exec : Stmt → Store Mem → Outcome × Store Mem
  | .missing, σ => (.next, σ)
  | .move d s, σ => (.next, assign d (fun σ => eval s σ) σ)
  | .eval e, σ => (.next, (eval e σ).2)
  | .jump d _, σ =>
    let x := eval d σ
    (.address x.1, x.2)
  | .cjump c l r t f, σ =>
    let x := eval l σ
    let y := eval r x.2
    (.label (if I.holds c x.1 y.1 then t else f), y.2)
  | .seq list, σ => execAll list σ
  | .place _, σ => (.next, σ)

/-- How statements one after the other end, up to the first transfer of control. -/
def execAll : List Stmt → Store Mem → Outcome × Store Mem
  | [], σ => (.next, σ)
  | s :: rest, σ =>
    match exec s σ with
    | (.next, σ) => execAll rest σ
    | out => out

/-- Store a value in a register or in memory. The statements and the address of the destination come
before the value; nothing else can be stored to. -/
def assign : Expr → (Store Mem → Int64 × Store Mem) → Store Mem → Store Mem
  | .temp r, src, σ =>
    let x := src σ
    x.2.setReg r x.1
  | .mem a, src, σ =>
    let p := eval a σ
    let x := src p.2
    x.2.write I p.1 x.1
  | .eseq s d, src, σ => assign d src (exec s σ).2
  | _, src, σ => (src σ).2

end

/-! ### Statements one after the other -/

variable {I} {σ τ : Store Mem} {xs ys : List Stmt}

theorem execAll_cons_of_next {x : Stmt} (h : (exec I x σ).1 = .next) :
    execAll I (x :: xs) σ = execAll I xs (exec I x σ).2 := by
  rw [execAll]
  generalize exec I x σ = out at h ⊢
  obtain ⟨o, τ⟩ := out
  cases h
  rfl

theorem execAll_cons_of_ne {x : Stmt} (h : (exec I x σ).1 ≠ .next) :
    execAll I (x :: xs) σ = exec I x σ := by
  rw [execAll]
  generalize exec I x σ = out at h ⊢
  obtain ⟨o, τ⟩ := out
  cases o with
  | next => exact absurd rfl h
  | label l => rfl
  | address v => rfl

theorem execAll_singleton (x : Stmt) : execAll I [x] σ = exec I x σ := by
  by_cases h : (exec I x σ).1 = .next
  · rw [execAll_cons_of_next h, execAll, ← h]
  · exact execAll_cons_of_ne h

theorem execAll_append_of_next (h : (execAll I xs σ).1 = .next) :
    execAll I (xs ++ ys) σ = execAll I ys (execAll I xs σ).2 := by
  induction xs generalizing σ with
  | nil => rfl
  | cons x xs ih =>
    rw [List.cons_append]
    by_cases hx : (exec I x σ).1 = .next
    · rw [execAll_cons_of_next hx] at h ⊢
      rw [execAll_cons_of_next hx, ih h]
    · rw [execAll_cons_of_ne hx] at h
      exact absurd h hx

theorem execAll_append_of_ne (h : (execAll I xs σ).1 ≠ .next) :
    execAll I (xs ++ ys) σ = execAll I xs σ := by
  induction xs generalizing σ with
  | nil => exact absurd rfl h
  | cons x xs ih =>
    rw [List.cons_append]
    by_cases hx : (exec I x σ).1 = .next
    · rw [execAll_cons_of_next hx] at h
      rw [execAll_cons_of_next hx, execAll_cons_of_next hx, ih h]
    · rw [execAll_cons_of_ne hx, execAll_cons_of_ne hx]

mutual

/-- Sequences run as the statements in them. -/
theorem execAll_flatten (s : Stmt) (σ : Store Mem) : execAll I s.flatten σ = exec I s σ := by
  cases s with
  | seq list =>
    rw [Stmt.flatten, exec]
    exact execAll_flattenAll list σ
  | missing | move | eval | jump | cjump | place => exact execAll_singleton _

theorem execAll_flattenAll (list : List Stmt) (σ : Store Mem) :
    execAll I (Stmt.flattenAll list) σ = execAll I list σ := by
  cases list with
  | nil => rfl
  | cons s rest =>
    rw [Stmt.flattenAll]
    have hs := execAll_flatten s σ
    by_cases h : (exec I s σ).1 = .next
    · rw [execAll_append_of_next (by rw [hs]; exact h), hs, execAll_cons_of_next h]
      exact execAll_flattenAll rest _
    · rw [execAll_append_of_ne (by rw [hs]; exact h), hs, execAll_cons_of_ne h]

end

/-! ### Labels -/

/-- The labels that are placed, each with the statements behind it. -/
def entries : List Stmt → List (Option Label × List Stmt)
  | [] => []
  | .place l :: rest => (l, rest) :: entries rest
  | _ :: rest => entries rest

theorem entries_append (xs ys : List Stmt) :
    entries (xs ++ ys) = ((entries xs).map fun p => (p.1, p.2 ++ ys)) ++ entries ys := by
  fun_induction entries xs with
  | case1 => rfl
  | case2 l rest ih => rw [List.cons_append, entries, ih]; rfl
  | case3 x rest hx ih =>
    rw [List.cons_append, entries, ih]
    exact hx

/-- Neither a sequence nor a label. -/
def isStep : Stmt → Bool
  | .seq _ | .place _ => false
  | _ => true

theorem entries_append_of_isStep {ys : List Stmt} (h : ∀ x ∈ xs, isStep x = true) :
    entries (xs ++ ys) = entries ys := by
  induction xs with
  | nil => rfl
  | cons x xs ih =>
    have hx := h x List.mem_cons_self
    rw [List.cons_append, ← ih fun y hy => h y (List.mem_cons_of_mem x hy)]
    cases x with
    | seq | place => cases hx
    | missing | move | eval | jump | cjump => rfl

/-! ### Registers and transfers of control in trees -/

mutual

/-- The registers of an expression. -/
def regsOf : Expr → List (Option Reg)
  | .missing | .int _ | .addr _ => []
  | .temp r => [r]
  | .bin _ l r _ => regsOf l ++ regsOf r
  | .mem a => regsOf a
  | .call f args link => regsOf f ++ regsOfAll args ++ regsOf link
  | .eseq s v => regsIn s ++ regsOf v

/-- The registers of several expressions. -/
def regsOfAll : List Expr → List (Option Reg)
  | [] => []
  | e :: rest => regsOf e ++ regsOfAll rest

/-- The registers of a statement. -/
def regsIn : Stmt → List (Option Reg)
  | .missing | .place _ => []
  | .move d s => regsOf d ++ regsOf s
  | .eval e => regsOf e
  | .jump d _ => regsOf d
  | .cjump _ l r _ _ => regsOf l ++ regsOf r
  | .seq list => regsInAll list

/-- The registers of several statements. -/
def regsInAll : List Stmt → List (Option Reg)
  | [] => []
  | s :: rest => regsIn s ++ regsInAll rest

end

mutual

/-- There is no jump and no label inside the expression. -/
def isStraight : Expr → Bool
  | .missing | .int _ | .addr _ | .temp _ => true
  | .bin _ l r _ => isStraight l && isStraight r
  | .mem a => isStraight a
  | .call f args link => isStraight f && areStraight args && isStraight link
  | .eseq s v => runsThrough s && isStraight v

/-- There is no jump and no label inside the expressions. -/
def areStraight : List Expr → Bool
  | [] => true
  | e :: rest => isStraight e && areStraight rest

/-- There is no jump and no label in the statement. -/
def runsThrough : Stmt → Bool
  | .missing => true
  | .move d s => isStraight d && isStraight s
  | .eval e => isStraight e
  | .jump .. | .cjump .. | .place _ => false
  | .seq list => runThrough list

/-- There is no jump and no label in the statements. -/
def runThrough : List Stmt → Bool
  | [] => true
  | s :: rest => runsThrough s && runThrough rest

end

mutual

/-- Jumps and labels stand in sequences only, never inside an expression. -/
def isOrderly : Stmt → Bool
  | .missing | .place _ => true
  | .move d s => isStraight d && isStraight s
  | .eval e => isStraight e
  | .jump d _ => isStraight d
  | .cjump _ l r _ _ => isStraight l && isStraight r
  | .seq list => areOrderly list

/-- Jumps and labels of the statements stand in sequences only. -/
def areOrderly : List Stmt → Bool
  | [] => true
  | s :: rest => isOrderly s && areOrderly rest

end

mutual

/-- Control goes on behind a statement without jumps. -/
theorem exec_fst_of_runsThrough {s : Stmt} (h : runsThrough s = true) (σ : Store Mem) :
    (exec I s σ).1 = .next := by
  cases s with
  | seq list => exact execAll_fst_of_runThrough h σ
  | missing | move | eval => rfl
  | jump | cjump | place => cases h

theorem execAll_fst_of_runThrough {list : List Stmt} (h : runThrough list = true) (σ : Store Mem) :
    (execAll I list σ).1 = .next := by
  cases list with
  | nil => rfl
  | cons s rest =>
    rw [runThrough, Bool.and_eq_true] at h
    rw [execAll_cons_of_next (exec_fst_of_runsThrough h.1 σ)]
    exact execAll_fst_of_runThrough h.2 _

end

end Codegen.Semantics
