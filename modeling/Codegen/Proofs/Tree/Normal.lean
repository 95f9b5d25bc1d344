import Codegen.Canonical.Tree
import Codegen.Proofs.Canonical.Fold

/-!
# Normal trees

What canonical forms are made of, over some registers. A reduced expression (`Expr.Reduced`) has no
call and no statement inside, and none of its operator applications can be simplified. A whole one
(`Expr.Whole`) may also be one call of reduced operands. An atomic statement (`Stmt.Atomic`) is no
sequence and holds a whole expression at most where a call may stay. The registers that a tree moves to
are listed apart (`Stmt.dsts`).
-/

namespace Codegen

open List

/-! ### Reduced expressions and atomic statements -/

/-- No call and no statement inside, nothing absent, and every operator application is its own
simplified form. -/
def Expr.Reduced (P : Option Reg → Prop) : Expr → Prop
  | .int _ | .addr _ => True
  | .temp r => P r
  | .bin op l r pos => l.Reduced P ∧ r.Reduced P ∧ Expr.fold op l r pos = .bin op l r pos
  | .mem a => a.Reduced P
  | .missing | .call .. | .eseq .. => False

/-- Reduced, or a call of reduced operands; its link may be absent. -/
def Expr.Whole (P : Option Reg → Prop) : Expr → Prop
  | .call f args link =>
    f.Reduced P ∧ (∀ a ∈ args, a.Reduced P) ∧ (link.isPresent = true → link.Reduced P)
  | e => e.Reduced P

/-- A statement of a canonical form, which reads registers of which `P` holds and moves to registers of
which `W` holds. A call stands only by itself, as the source of a move to a register, or as the source
of a move to the address of a label. -/
def Stmt.Atomic (P W : Option Reg → Prop) : Stmt → Prop
  | .move (.temp r) s => W r ∧ s.Whole P
  | .move (.mem a) s =>
    a.Reduced P ∧ (s.Reduced P ∨ Canonical.isFixedAddress a = true ∧ s.Whole P)
  | .eval e => e.Whole P ∧ e.isConst = false
  | .jump d targets => d.Reduced P ∧ targets ≠ []
  | .cjump _ l r t f =>
    l.Reduced P ∧ r.Reduced P ∧ (∀ x y, l = .int x → r ≠ .int y) ∧ t.isSome = true ∧ f.isSome = true
  | .place l => l.isSome = true
  | .missing | .seq _ | .move .. => False

/-! ### Registers that are moved to -/

mutual

/-- The registers that statements inside an expression move to. -/
def Expr.dsts : Expr → List (Option Reg)
  | .missing | .int _ | .addr _ | .temp _ => []
  | .bin _ l r _ => l.dsts ++ r.dsts
  | .mem a => a.dsts
  | .call f args link => f.dsts ++ Expr.dstsAll args ++ link.dsts
  | .eseq s v => s.dsts ++ v.dsts

/-- The registers that statements inside several expressions move to. -/
def Expr.dstsAll : List Expr → List (Option Reg)
  | [] => []
  | e :: rest => e.dsts ++ Expr.dstsAll rest

/-- The registers that a move to this destination writes, those inside of it included. -/
def Expr.dstsTo : Expr → List (Option Reg)
  | .temp r => [r]
  | .mem a => a.dsts
  | .eseq s v => s.dsts ++ v.dstsTo
  | .missing | .int _ | .addr _ | .bin .. | .call .. => []

/-- The registers that a statement moves to. -/
def Stmt.dsts : Stmt → List (Option Reg)
  | .missing | .place _ => []
  | .move d s => d.dstsTo ++ s.dsts
  | .eval e => e.dsts
  | .jump d _ => d.dsts
  | .cjump _ l r _ _ => l.dsts ++ r.dsts
  | .seq list => Stmt.dstsAll list

/-- The registers that several statements move to. -/
def Stmt.dstsAll : List Stmt → List (Option Reg)
  | [] => []
  | s :: rest => s.dsts ++ Stmt.dstsAll rest

end

variable {P P' W W' : Option Reg → Prop} {e l r : Expr} {op : Op} {pos : Int}

/-! ### More registers -/

theorem Expr.Reduced.mono (h : e.Reduced P) (hP : ∀ r, P r → P' r) : e.Reduced P' := by
  fun_induction Expr.Reduced P e with
  | case1 | case2 => trivial
  | case3 r => exact hP r h
  | case4 op l r pos ihl ihr => exact ⟨ihl h.1, ihr h.2.1, h.2.2⟩
  | case5 a ih => exact ih h
  | case6 | case7 | case8 => cases h

theorem Expr.Reduced.whole (h : e.Reduced P) : e.Whole P := by
  cases e with
  | call => cases h
  | missing | int | addr | temp | bin | mem | eseq => exact h

theorem Expr.Whole.mono (h : e.Whole P) (hP : ∀ r, P r → P' r) : e.Whole P' := by
  cases e with
  | call f args link =>
    exact ⟨h.1.mono hP, fun a ha => (h.2.1 a ha).mono hP, fun hl => (h.2.2 hl).mono hP⟩
  | missing | int | addr | temp | bin | mem | eseq => exact Expr.Reduced.mono h hP

theorem Stmt.Atomic.mono {x : Stmt} (h : x.Atomic P W) (hP : ∀ r, P r → P' r) (hW : ∀ r, W r → W' r) :
    x.Atomic P' W' := by
  cases x with
  | missing | seq => cases h
  | place => exact h
  | eval e => exact ⟨h.1.mono hP, h.2⟩
  | jump d targets => exact ⟨h.1.mono hP, h.2⟩
  | cjump c l r t f => exact ⟨h.1.mono hP, h.2.1.mono hP, h.2.2⟩
  | move d s =>
    cases d with
    | missing | int | addr | bin | call | eseq => cases h
    | temp r => exact ⟨hW r h.1, h.2.mono hP⟩
    | mem a =>
      exact ⟨h.1.mono hP, h.2.imp (fun hs => hs.mono hP) fun hs => ⟨hs.1, hs.2.mono hP⟩⟩

/-! ### The registers of a tree -/

theorem append_subset_append {α : Type} {as bs cs ds : List α} (h : as ⊆ cs) (h' : bs ⊆ ds) :
    as ++ bs ⊆ cs ++ ds :=
  append_subset.mpr ⟨subset_append_of_subset_left _ h, subset_append_of_subset_right _ h'⟩

open Semantics in
mutual

/-- What statements inside an expression move to is named there. -/
theorem Expr.dsts_subset : (e : Expr) → e.dsts ⊆ regsOf e
  | .missing | .int _ | .addr _ | .temp _ => nil_subset _
  | .bin _ l r _ => append_subset_append l.dsts_subset r.dsts_subset
  | .mem a => a.dsts_subset
  | .call f args link =>
    append_subset_append (append_subset_append f.dsts_subset (Expr.dstsAll_subset args))
      link.dsts_subset
  | .eseq s v => append_subset_append s.dsts_subset v.dsts_subset

theorem Expr.dstsAll_subset : (es : List Expr) → Expr.dstsAll es ⊆ regsOfAll es
  | [] => nil_subset _
  | e :: es => append_subset_append e.dsts_subset (Expr.dstsAll_subset es)

theorem Expr.dstsTo_subset : (d : Expr) → d.dstsTo ⊆ regsOf d
  | .temp _ => List.Subset.refl _
  | .mem a => a.dsts_subset
  | .eseq s v => append_subset_append s.dsts_subset v.dstsTo_subset
  | .missing | .int _ | .addr _ | .bin .. | .call .. => nil_subset _

/-- What a statement moves to is named there. -/
theorem Stmt.dsts_subset : (x : Stmt) → x.dsts ⊆ regsIn x
  | .missing | .place _ => nil_subset _
  | .move d s => append_subset_append d.dstsTo_subset s.dsts_subset
  | .eval e => e.dsts_subset
  | .jump d _ => d.dsts_subset
  | .cjump _ l r _ _ => append_subset_append l.dsts_subset r.dsts_subset
  | .seq list => Stmt.dstsAll_subset list

theorem Stmt.dstsAll_subset : (list : List Stmt) → Stmt.dstsAll list ⊆ regsInAll list
  | [] => nil_subset _
  | x :: list => append_subset_append x.dsts_subset (Stmt.dstsAll_subset list)

end

open Semantics in
theorem Expr.Reduced.of_mem_regsOf (h : e.Reduced P) : ∀ r ∈ regsOf e, P r := by
  fun_induction Expr.Reduced P e with
  | case1 | case2 => nofun
  | case3 r => exact forall_mem_singleton.mpr h
  | case4 op l r pos ihl ihr => exact forall_mem_append.mpr ⟨ihl h.1, ihr h.2.1⟩
  | case5 a ih => exact ih h
  | case6 | case7 | case8 => cases h

open Semantics in
theorem Expr.Whole.of_mem_regsOf (h : e.Whole P) : ∀ r ∈ regsOf e, P r := by
  cases e with
  | call f args link =>
    obtain ⟨hf, hargs, hlink⟩ := h
    rw [regsOf, forall_mem_append, forall_mem_append]
    refine ⟨⟨hf.of_mem_regsOf, fun r hr => ?_⟩, ?_⟩
    · obtain ⟨a, ha, hr⟩ := mem_regsOfAll.mp hr
      exact (hargs a ha).of_mem_regsOf r hr
    · cases link with
      | missing => exact forall_mem_nil _
      | int | addr | temp | bin | mem | call | eseq => exact (hlink rfl).of_mem_regsOf
  | missing | int | addr | temp | bin | mem | eseq => exact Reduced.of_mem_regsOf h

/-! ### Folding once is enough -/

namespace Expr

theorem not_dividesByZero (h : op.isCommutative = true) (e : Expr) : dividesByZero op e = false := by
  cases op with
  | div => cases h
  | add | sub | mul | and | or | xor | shl | shr | sar | unknown => rfl

/-- Operands that were exchanged stay as they are. -/
theorem fold_exchanged (hop : op.isCommutative = true) (hr : r.isBin = true)
    (hdrop : dropNeutral op l r = none) : fold op r l pos = .bin op r l pos := by
  cases r with
  | missing | int | addr | temp | mem | call | eseq => cases hr
  | bin op' a b pos' =>
    have hnone : dropNeutral op (.bin op' a b pos') l = none := by
      cases op with
      | sub | div | shl | shr | sar | unknown => cases hop
      | and | or | xor => rfl
      | add | mul =>
        simp only [dropNeutral] at hdrop ⊢
        split_ifs at hdrop with hl
        rw [if_neg hl]
        rfl
    unfold fold
    rw [if_neg (by rw [not_dividesByZero hop]; exact Bool.false_ne_true)]
    show foldOperands op (.bin op' a b pos') l pos = _
    rw [foldOperands, hnone]
    show (if op.isCommutative && false && l.isBin then _ else _) = _
    rw [Bool.and_false, Bool.false_and, if_neg Bool.false_ne_true]

/-- What folding comes to: the application as it is, a constant, or what its operands allow. -/
theorem fold_eq_or (op : Op) (l r : Expr) (pos : Int) : fold op l r pos = .bin op l r pos ∨
    (∃ v, fold op l r pos = .int v) ∨ fold op l r pos = foldOperands op l r pos := by
  unfold fold
  split
  · exact .inl rfl
  · split
    · rename_i x y _
      cases op.eval x y with
      | some v => exact .inr (.inl ⟨v, rfl⟩)
      | none => exact .inl rfl
    · exact .inr (.inr rfl)

/-- What folding reduced operands gives is reduced. -/
theorem reduced_fold (hl : l.Reduced P) (hr : r.Reduced P) : (fold op l r pos).Reduced P := by
  obtain h | ⟨v, h⟩ | h := fold_eq_or op l r pos
  · rw [h]
    exact ⟨hl, hr, h⟩
  · rw [h]
    trivial
  · rw [foldOperands] at h
    cases hdrop : dropNeutral op l r with
    | some e =>
      rw [hdrop] at h
      rw [h]
      obtain ⟨rfl, -⟩ | ⟨rfl, -⟩ := Semantics.dropNeutral_cases hdrop
      · exact hr
      · exact hl
    | none =>
      rw [hdrop] at h
      dsimp only at h
      split at h
      · rename_i hswap
        simp only [Bool.and_eq_true] at hswap
        rw [h]
        exact ⟨hr, hl, fold_exchanged hswap.1.1 hswap.2 hdrop⟩
      · rw [h]
        exact ⟨hl, hr, h⟩

end Expr

end Codegen
