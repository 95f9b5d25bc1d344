import Codegen.Canonical.Fold
import Codegen.Proofs.Canonical.Simple
import Mathlib.Tactic.SplitIfs

/-!
# Folding preserves values

A folded operator application has the value of the application (`eval_fold`), is pure again and has
no other registers.
-/

namespace Codegen.Semantics

open Codegen.Expr

variable {Mem : Type*} {I : Interp Mem} {op : Op} {l r e : Expr} {pos : Int} {σ : Store Mem}

theorem eval_of_isInt {v : Int64} (h : e.isInt v = true) (σ : Store Mem) : (eval I e σ).1 = v := by
  cases e with
  | int x => exact beq_iff_eq.mp h
  | missing | addr | temp | bin | mem | call | eseq => cases h

/-- An operand is dropped only if the other one is neutral. -/
theorem dropNeutral_cases (h : dropNeutral op l r = some e) :
    e = r ∧ (op = .add ∧ l.isInt 0 = true ∨ op = .mul ∧ l.isInt 1 = true) ∨
      e = l ∧ ((op = .add ∨ op = .sub) ∧ r.isInt 0 = true ∨
        (op = .mul ∨ op = .div) ∧ r.isInt 1 = true) := by
  unfold dropNeutral at h
  split at h
  · split_ifs at h with h1 h2
    · cases h
      exact Or.inl ⟨rfl, Or.inl ⟨rfl, h1⟩⟩
    · cases h
      exact Or.inr ⟨rfl, Or.inl ⟨Or.inl rfl, h2⟩⟩
  · split_ifs at h with h1
    cases h
    exact Or.inr ⟨rfl, Or.inl ⟨Or.inr rfl, h1⟩⟩
  · split_ifs at h with h1 h2
    · cases h
      exact Or.inl ⟨rfl, Or.inr ⟨rfl, h1⟩⟩
    · cases h
      exact Or.inr ⟨rfl, Or.inr ⟨Or.inl rfl, h2⟩⟩
  · split_ifs at h with h1
    cases h
    exact Or.inr ⟨rfl, Or.inr ⟨Or.inr rfl, h1⟩⟩
  · cases h

theorem eval_dropNeutral (h : dropNeutral op l r = some e) (σ : Store Mem) :
    (eval I e σ).1 = I.apply op (eval I l σ).1 (eval I r σ).1 := by
  rcases dropNeutral_cases h with ⟨rfl, ⟨rfl, h1⟩ | ⟨rfl, h1⟩⟩ |
    ⟨rfl, ⟨rfl | rfl, h1⟩ | ⟨rfl | rfl, h1⟩⟩
  · rw [eval_of_isInt h1]
    exact (Int64.zero_add _).symm
  · rw [eval_of_isInt h1]
    exact (Int64.one_mul _).symm
  · rw [eval_of_isInt h1]
    exact (Int64.add_zero _).symm
  · rw [eval_of_isInt h1]
    exact (Int64.sub_zero _).symm
  · rw [eval_of_isInt h1]
    exact (Int64.mul_one _).symm
  · rw [eval_of_isInt h1]
    exact Int64.div_one.symm

/-- The operands of commutative operators may be exchanged. -/
theorem apply_comm (h : op.isCommutative = true) (x y : Int64) : I.apply op x y = I.apply op y x := by
  cases op with
  | add => exact Int64.add_comm x y
  | mul => exact Int64.mul_comm x y
  | and => exact Int64.and_comm x y
  | or => exact Int64.or_comm x y
  | xor => exact Int64.xor_comm x y
  | sub | div | shl | shr | sar | unknown => cases h

theorem fold_cases (op : Op) (l r : Expr) (pos : Int) :
    fold op l r pos = .bin op l r pos ∨
      (op.isCommutative = true ∧ fold op l r pos = .bin op r l pos) ∨
      (∃ e, dropNeutral op l r = some e ∧ fold op l r pos = e) ∨
      ∃ x y v, l = .int x ∧ r = .int y ∧ op.eval x y = some v ∧ fold op l r pos = .int v := by
  have hoperands : foldOperands op l r pos = .bin op l r pos ∨
      (op.isCommutative = true ∧ foldOperands op l r pos = .bin op r l pos) ∨
      ∃ e, dropNeutral op l r = some e ∧ foldOperands op l r pos = e := by
    unfold foldOperands
    cases hdrop : dropNeutral op l r with
    | some e => exact Or.inr (Or.inr ⟨e, rfl, rfl⟩)
    | none =>
      dsimp only
      split
      · rename_i h
        simp only [Bool.and_eq_true] at h
        exact Or.inr (Or.inl ⟨h.1.1, rfl⟩)
      · exact Or.inl rfl
  unfold fold
  split
  · exact Or.inl rfl
  · split
    · rename_i x y _
      cases hv : op.eval x y with
      | some v => exact Or.inr (Or.inr (Or.inr ⟨x, y, v, rfl, rfl, hv, rfl⟩))
      | none => exact Or.inl rfl
    · exact hoperands.imp_right (Or.imp_right Or.inl)

theorem isPure_fold (hl : isPure l = true) (hr : isPure r = true) :
    isPure (fold op l r pos) = true := by
  have hbin : ∀ {a b}, isPure a = true → isPure b = true → isPure (.bin op a b pos) = true :=
    fun ha hb => by rw [isPure, ha, hb]; rfl
  rcases fold_cases op l r pos with h | ⟨-, h⟩ | ⟨e, hdrop, h⟩ | ⟨x, y, v, -, -, -, h⟩ <;> rw [h]
  · exact hbin hl hr
  · exact hbin hr hl
  · rcases dropNeutral_cases hdrop with ⟨rfl, -⟩ | ⟨rfl, -⟩
    · exact hr
    · exact hl
  · rfl

theorem mem_regsOf_fold {w : Option Reg} (hw : w ∈ regsOf (fold op l r pos)) :
    w ∈ regsOf l ∨ w ∈ regsOf r := by
  rcases fold_cases op l r pos with h | ⟨-, h⟩ | ⟨e, hdrop, h⟩ | ⟨x, y, v, -, -, -, h⟩ <;>
    rw [h] at hw
  · exact List.mem_append.mp hw
  · exact (List.mem_append.mp hw).symm
  · rcases dropNeutral_cases hdrop with ⟨rfl, -⟩ | ⟨rfl, -⟩
    · exact Or.inr hw
    · exact Or.inl hw
  · cases hw

/-- Folding preserves the value of the application. -/
theorem eval_fold (hl : isPure l = true) (hr : isPure r = true) (σ : Store Mem) :
    (eval I (fold op l r pos) σ).1 = I.apply op (eval I l σ).1 (eval I r σ).1 := by
  rcases fold_cases op l r pos with h | ⟨hcomm, h⟩ | ⟨e, hdrop, h⟩ | ⟨x, y, v, rfl, rfl, hv, h⟩ <;>
    rw [h]
  · exact eval_bin_fst hl σ
  · rw [eval_bin_fst hr, apply_comm hcomm]
  · exact eval_dropNeutral hdrop σ
  · show v = (op.eval x y).getD _
    rw [hv]
    rfl

end Codegen.Semantics
