import Codegen.Proofs.Canonical.Simple
import Codegen.Proofs.Selection.Skeleton

/-!
# What patterns mean

A pattern has a value for given values of its leaves (`Expr.denote`). If it matches an expression and
the leaves have the values of what they are bound to, this is the value of the expression
(`Expr.Binds.denote`), and it is defined if the expression is (`Expr.Binds.definedAt`). What is left
over by a match is part of the expression (`Expr.Binds.mem_parts`).
-/

namespace Codegen

open Semantics List

/-- The operator can be applied: this is defined and no division that overflows. -/
def Op.Defined (op : Op) (x y : Int64) : Prop :=
  op.eval x y ≠ none ∧ ¬ (op = .div ∧ x = Int64.minValue ∧ y = -1)

instance (op : Op) (x y : Int64) : Decidable (op.Defined x y) :=
  inferInstanceAs (Decidable (_ ∧ _))

variable {Mem : Type} (I : Interp Mem)

theorem Op.Defined.exists_eval {op : Op} {x y : Int64} (h : op.Defined x y) :
    ∃ w, op.eval x y = some w ∧ I.apply op x y = w := by
  obtain ⟨w, hw⟩ := Option.ne_none_iff_exists'.mp h.1
  exact ⟨w, hw, by rw [Interp.apply, hw, Option.getD_some]⟩

/-- All operators of an expression without effects can be applied. -/
def Expr.Defined (σ : Store Mem) : Expr → Prop
  | .bin op l r _ => l.Defined σ ∧ r.Defined σ ∧ op.Defined (eval I l σ).1 (eval I r σ).1
  | .mem a => a.Defined σ
  | _ => True

/-- What a leaf is bound to, as an expression. -/
def Leaf.expr : Leaf → Expr
  | .temp r => .temp r
  | .int v => .int v
  | .addr l => .addr l
  | .glue e => e

/-- The value of what a leaf is bound to. -/
def Leaf.value (σ : Store Mem) (l : Leaf) : Int64 := (eval I l.expr σ).1

/-- The leaf can be bound to this. -/
def Leaf.Suits : LeafKind → Leaf → Prop
  | .int, .int _ | .addr, .addr _ | .temp, .temp _ | .temp, .glue _ => True
  | _, _ => False

namespace Expr

/-- The expressions inside an expression that patterns reach, with itself. -/
def parts : Expr → List Expr
  | .bin op l r pos => .bin op l r pos :: (l.parts ++ r.parts)
  | .mem a => .mem a :: a.parts
  | .call f args link => .call f args link :: f.parts
  | e => [e]

/-- No call, no statement and no unknown operator inside. -/
def isPlain : Expr → Bool
  | .int _ | .addr _ | .temp _ => true
  | .bin op l r _ => op.isKnown && l.isPlain && r.isPlain
  | .mem a => a.isPlain
  | .missing | .call .. | .eseq .. => false

/-- The value of a pattern for given values of its leaves, and the values that are left. -/
def denote (mem : Mem) : Expr → List Int64 → Int64 × List Int64
  | .bin op l r _, vs =>
    let x := l.denote mem vs
    let y := r.denote mem x.2
    (I.apply op x.1 y.1, y.2)
  | .mem a, vs =>
    let x := a.denote mem vs
    (I.load mem x.1, x.2)
  | _, v :: vs => (v, vs)
  | _, [] => (0, [])

/-- All operators of a pattern can be applied for given values of its leaves. -/
def DefinedAt (mem : Mem) : Expr → List Int64 → Prop
  | .bin op l r _, vs =>
    let x := l.denote I mem vs
    let y := r.denote I mem x.2
    l.DefinedAt mem vs ∧ r.DefinedAt mem x.2 ∧ op.Defined x.1 y.1
  | .mem a, vs => a.DefinedAt mem vs
  | _, _ => True

/-- The pattern matches the expression and binds its leaves. -/
inductive Binds (fits : Int64 → Bool) : Expr → Expr → Binding → Prop
  | reg (q r : Option Reg) : Binds fits (.temp q) (.temp r) ⟨1, [.temp r]⟩
  | rest (q : Option Reg) {x : Expr} (hx : ∀ r, x ≠ .temp r) : Binds fits (.temp q) x ⟨0, [.glue x]⟩
  | int {c v : Int64} (h : ((c == 0 || c == v) && fits v) = true) :
    Binds fits (.int c) (.int v) ⟨1, [.int v]⟩
  | addr (l l' : Option Label) : Binds fits (.addr l) (.addr l') ⟨1, [.addr l']⟩
  | bin {op : Op} {l r l' r' : Expr} {pos pos' : Int} {a b : Binding} : Binds fits l l' a →
    Binds fits r r' b → Binds fits (.bin op l r pos) (.bin op l' r' pos') (a.also b).above
  | mem {a a' : Expr} {b : Binding} : Binds fits a a' b → Binds fits (.mem a) (.mem a') b.above
  | call {f f' link link' : Expr} {args args' : List Expr} {b : Binding} : Binds fits f f' b →
    Binds fits (.call f args link) (.call f' args' link') b.above

variable {I} {fits : Int64 → Bool} {p x : Expr} {b : Binding} {σ : Store Mem}

theorem binds_of_bind (h : p.bind fits x = some b) : p.Binds fits x b := by
  fun_induction Expr.bind fits p x generalizing b with
  | case1 => cases h; exact .reg _ _
  | case2 q x hx => cases h; exact .rest _ hx
  | case3 c v hc => cases h; exact .int hc
  | case5 => cases h; exact .addr _ _
  | case4 | case7 | case10 => cases h
  | case6 _ _ _ _ _ _ _ ihl ihr =>
    simp only [Option.bind_eq_bind, Option.pure_def, Option.bind_eq_some_iff] at h
    obtain ⟨a, ha, c, hc, h⟩ := h
    cases h
    exact .bin (ihl ha) (ihr hc)
  | case8 a a' ih =>
    obtain ⟨c, hc, rfl⟩ := Option.map_eq_some_iff.mp h
    exact .mem (ih hc)
  | case9 f _ _ f' _ _ ih =>
    obtain ⟨c, hc, rfl⟩ := Option.map_eq_some_iff.mp h
    exact .call (ih hc)

theorem mem_parts_self (x : Expr) : x ∈ x.parts := by
  cases x <;> exact mem_cons_self

namespace Binds

/-- A pattern has the value of what it matches. -/
theorem denote (h : p.Binds fits x b) (hx : isPure x = true) (vs : List Int64) :
    p.denote I σ.mem (b.leaves.map (Leaf.value I σ) ++ vs) = ((eval I x σ).1, vs) := by
  induction h generalizing vs with
  | reg | rest | int | addr => rfl
  | bin _ _ ihl ihr =>
    simp only [isPure, Bool.and_eq_true] at hx
    simp only [Binding.leaves_above, Binding.leaves_also, map_append, append_assoc, Expr.denote,
      ihl hx.1, ihr hx.2, eval_bin_fst hx.1]
  | mem _ ih =>
    rw [isPure] at hx
    simp only [Binding.leaves_above, Expr.denote, ih hx, eval_mem_fst hx]
  | call => cases hx

/-- A pattern is defined where what it matches is. -/
theorem definedAt (h : p.Binds fits x b) (hx : isPure x = true) (hd : x.Defined I σ)
    (vs : List Int64) : p.DefinedAt I σ.mem (b.leaves.map (Leaf.value I σ) ++ vs) := by
  induction h generalizing vs with
  | reg | rest | int | addr => trivial
  | bin ha hc ihl ihr =>
    simp only [isPure, Bool.and_eq_true] at hx
    obtain ⟨hl, hr, hop⟩ := hd
    simp only [Binding.leaves_above, Binding.leaves_also, map_append, append_assoc,
      DefinedAt, ha.denote hx.1, hc.denote hx.2]
    exact ⟨ihl hx.1 hl _, ihr hx.2 hr _, hop⟩
  | mem _ ih => exact ih hx hd vs
  | call => cases hx

/-- Leaves are bound to what suits them. -/
theorem suits (h : p.Binds fits x b) : List.Forall₂ Leaf.Suits p.leafKinds b.leaves := by
  induction h with
  | reg | rest | int | addr => exact .cons trivial .nil
  | bin _ _ ihl ihr => exact rel_append ihl ihr
  | mem _ ih | call _ ih => exact ih

/-- Leaves are bound to parts of what is matched. -/
theorem mem_parts (h : p.Binds fits x b) {l : Leaf} (hl : l ∈ b.leaves) : l.expr ∈ x.parts := by
  induction h with
  | reg | rest | int | addr =>
    rw [mem_singleton.mp hl]
    exact mem_parts_self _
  | bin _ _ ihl ihr => exact mem_cons_of_mem _ (mem_append.mpr ((mem_append.mp hl).imp ihl ihr))
  | mem _ ih | call _ ih => exact mem_cons_of_mem _ (ih hl)

end Binds

/-! ### Parts of expressions -/

theorem isPure_of_isPlain (h : x.isPlain = true) : isPure x = true := by
  fun_induction isPlain x with
  | case1 | case2 | case3 => rfl
  | case4 op l r _ ihl ihr =>
    simp only [Bool.and_eq_true] at h
    rw [isPure, ihl h.1.2, ihr h.2]
    rfl
  | case5 a ih => exact ih h
  | case6 | case7 | case8 => cases h

variable {e : Expr}

/-- What passes on to the operands of an expression passes on to all its parts. -/
theorem of_mem_parts {P : Expr → Prop} (hx : P x) (he : e ∈ x.parts)
    (hbin : ∀ {op l r pos}, P (.bin op l r pos) → P l ∧ P r) (hmem : ∀ {a}, P (.mem a) → P a)
    (hcall : ∀ {f args link}, P (.call f args link) → P f) : P e := by
  fun_induction parts x with
  | case1 op l r _ ihl ihr =>
    obtain rfl | he := mem_cons.mp he
    · exact hx
    · exact (mem_append.mp he).elim (ihl (hbin hx).1) (ihr (hbin hx).2)
  | case2 a ih =>
    obtain rfl | he := mem_cons.mp he
    · exact hx
    · exact ih (hmem hx) he
  | case3 f args link ih =>
    obtain rfl | he := mem_cons.mp he
    · exact hx
    · exact ih (hcall hx) he
  | case4 => rwa [mem_singleton.mp he]

theorem isPlain_of_mem_parts (h : x.isPlain = true) (he : e ∈ x.parts) : e.isPlain = true := by
  refine of_mem_parts (P := (isPlain · = true)) h he (fun h => ?_) id nofun
  simp only [isPlain, Bool.and_eq_true] at h
  exact ⟨h.1.2, h.2⟩

theorem defined_of_mem_parts (h : x.isPlain = true) (hd : x.Defined I σ) (he : e ∈ x.parts) :
    e.Defined I σ := by
  refine (of_mem_parts (P := fun e => e.isPlain = true ∧ e.Defined I σ) ⟨h, hd⟩ he ?_ id nofun).2
  rintro op l r pos ⟨h, hl, hr, -⟩
  simp only [isPlain, Bool.and_eq_true] at h
  exact ⟨⟨h.1.2, hl⟩, h.2, hr⟩

theorem regsOf_subset_of_mem_parts (he : e ∈ x.parts) : regsOf e ⊆ regsOf x := by
  refine of_mem_parts (P := fun e => regsOf e ⊆ regsOf x) (List.Subset.refl _) he
    append_subset.mp id fun h => ?_
  exact (append_subset.mp (append_subset.mp h).1).1

end Expr

end Codegen
