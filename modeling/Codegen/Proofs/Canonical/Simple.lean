import Codegen.Canonical.Effects
import Codegen.Proofs.Supply
import Codegen.Proofs.Tree.Semantics

/-!
# Simple statements

Canonical trees are made of expressions without calls and statements (`isPure`), which leave the
store as it is, and of moves and evaluations that hold at most one call, as a whole (`isSimple`).
What such a statement does depends on its registers and the memory only (`Same.execAll`), and its
summary of effects says what it may change (`execAll_changes`); an expression that commutes with the
effects keeps its value (`eval_of_commutes`).
-/

namespace Codegen.Semantics

open List

/-- No call and no statement inside. -/
def isPure : Expr → Bool
  | .int _ | .addr _ | .temp _ => true
  | .bin _ l r _ => isPure l && isPure r
  | .mem a => isPure a
  | .missing | .call .. | .eseq .. => false

/-- No call and no statement inside, or a call of such expressions. -/
def isWhole : Expr → Bool
  | .call f args link => isPure f && args.all isPure && (!link.isPresent || isPure link)
  | e => isPure e

/-- A move to a register or to memory or an evaluation, with a call as a whole at most. -/
def isSimple : Stmt → Bool
  | .move (.temp _) s => isWhole s
  | .move (.mem a) s => isPure a && isWhole s
  | .eval e => isWhole e
  | _ => false

/-- Two stores agree on the memory, the calls made and the given registers. -/
structure Same {Mem : Type*} (K : Option Reg → Prop) (σ σ' : Store Mem) : Prop where
  regs : ∀ r, K r → σ'.regs r = σ.regs r
  mem : σ'.mem = σ.mem
  calls : σ'.calls = σ.calls

variable {Mem : Type*} {I : Interp Mem} {σ σ' σ'' : Store Mem} {K K' : Option Reg → Prop}
  {e : Expr} {x : Stmt} {xs : List Stmt}

namespace Same

theorem refl (K : Option Reg → Prop) (σ : Store Mem) : Same K σ σ := ⟨fun _ _ => rfl, rfl, rfl⟩

theorem trans (h : Same K σ σ') (h' : Same K σ' σ'') : Same K σ σ'' :=
  ⟨fun r hr => (h'.regs r hr).trans (h.regs r hr), h'.mem.trans h.mem, h'.calls.trans h.calls⟩

theorem mono (h : Same K σ σ') (hK : ∀ r, K' r → K r) : Same K' σ σ' :=
  ⟨fun r hr => h.regs r (hK r hr), h.mem, h.calls⟩

theorem setReg (h : Same K σ σ') (r : Option Reg) (v : Int64) :
    Same K (σ.setReg r v) (σ'.setReg r v) := by
  refine ⟨fun w hw => ?_, h.mem, h.calls⟩
  show Function.update σ'.regs r v w = Function.update σ.regs r v w
  by_cases hwr : w = r
  · rw [hwr, Function.update_self, Function.update_self]
  · rw [Function.update_of_ne hwr, Function.update_of_ne hwr, h.regs w hw]

/-- A register that does not count may be written. -/
theorem setReg_right (h : Same K σ σ') {r : Option Reg} (hr : ¬ K r) (v : Int64) :
    Same K σ (σ'.setReg r v) := by
  refine ⟨fun w hw => ?_, h.mem, h.calls⟩
  show Function.update σ'.regs r v w = _
  have hwr : w ≠ r := fun hwr => hr (hwr ▸ hw)
  rw [Function.update_of_ne hwr, h.regs w hw]

theorem write (h : Same K σ σ') (a v : Int64) : Same K (σ.write I a v) (σ'.write I a v) := by
  refine ⟨h.regs, ?_, h.calls⟩
  show I.store σ'.mem a v = I.store σ.mem a v
  rw [h.mem]

theorem invoke (h : Same K σ σ') (f : Int64) (args : List Int64) (link : Option Int64) :
    (I.invoke f args link σ').1 = (I.invoke f args link σ).1 ∧
      Same K (I.invoke f args link σ).2 (I.invoke f args link σ').2 := by
  unfold Interp.invoke
  rw [h.mem, h.calls]
  exact ⟨rfl, h.regs, rfl, rfl⟩

end Same

/-! ### Expressions without calls and statements -/

theorem eval_snd_of_isPure (h : isPure e = true) (σ : Store Mem) : (eval I e σ).2 = σ := by
  fun_induction isPure e with
  | case1 | case2 | case3 => rfl
  | case4 _ l r _ ihl ihr =>
    rw [Bool.and_eq_true] at h
    rw [eval]
    dsimp only
    rw [ihl h.1, ihr h.2]
  | case5 a ih =>
    rw [eval]
    dsimp only
    rw [ih h]
  | case6 | case7 | case8 => cases h

theorem evalAll_snd_of_isPure {es : List Expr} (h : ∀ e ∈ es, isPure e = true) (σ : Store Mem) :
    (evalAll I es σ).2 = σ := by
  induction es generalizing σ with
  | nil => rfl
  | cons e es ih =>
    rw [evalAll]
    dsimp only
    rw [eval_snd_of_isPure (h e mem_cons_self), ih fun e he => h e (mem_cons_of_mem _ he)]

theorem evalAll_fst_of_isPure {es : List Expr} (h : ∀ e ∈ es, isPure e = true) (σ : Store Mem) :
    (evalAll I es σ).1 = es.map fun e => (eval I e σ).1 := by
  induction es generalizing σ with
  | nil => rfl
  | cons e es ih =>
    rw [evalAll, map_cons]
    dsimp only
    rw [eval_snd_of_isPure (h e mem_cons_self), ih fun e he => h e (mem_cons_of_mem _ he)]

/-- A pure operator application takes the values of its operands at the same store. -/
theorem eval_bin_fst {op : Op} {l r : Expr} {pos : Int} (hl : isPure l = true) (σ : Store Mem) :
    (eval I (.bin op l r pos) σ).1 = I.apply op (eval I l σ).1 (eval I r σ).1 := by
  rw [eval]
  dsimp only
  rw [eval_snd_of_isPure hl]

theorem eval_mem_fst {a : Expr} (ha : isPure a = true) (σ : Store Mem) :
    (eval I (.mem a) σ).1 = I.load σ.mem (eval I a σ).1 := by
  rw [eval]
  dsimp only
  rw [eval_snd_of_isPure ha]

theorem isPure_of_commutes {eff : Effects} (h : eff.commutes e = true) : isPure e = true := by
  fun_induction isPure e with
  | case1 | case2 | case3 => rfl
  | case4 _ l r _ ihl ihr =>
    rw [Effects.commutes, Bool.and_eq_true] at h
    rw [ihl h.1, ihr h.2]
    rfl
  | case5 a ih =>
    rw [Effects.commutes, Bool.and_eq_true] at h
    exact ih h.2
  | case6 | case7 | case8 => cases h

/-- The value of an expression that commutes with the effects is the same after a change that they
sum up. -/
theorem eval_of_commutes {eff : Effects} (h : eff.commutes e = true)
    (hregs : ∀ r, r ∉ eff.regs → σ'.regs r = σ.regs r)
    (hmem : eff.memory = false → σ'.mem = σ.mem) : (eval I e σ').1 = (eval I e σ).1 := by
  have hpure := isPure_of_commutes h
  fun_induction isPure e with
  | case1 | case2 => rfl
  | case3 r =>
    refine hregs r fun hr => ?_
    rw [Effects.commutes, contains_iff_mem.mpr hr] at h
    cases h
  | case4 _ l r _ ihl ihr =>
    rw [Effects.commutes, Bool.and_eq_true] at h
    rw [Bool.and_eq_true] at hpure
    rw [eval_bin_fst hpure.1, eval_bin_fst hpure.1, ihl h.1 hpure.1, ihr h.2 hpure.2]
  | case5 a ih =>
    rw [Effects.commutes, Bool.and_eq_true, Bool.not_eq_true'] at h
    rw [eval_mem_fst hpure, eval_mem_fst hpure, ih h.2 hpure, hmem h.1]
  | case6 | case7 | case8 => cases hpure

/-- The value of a pure expression depends on its registers and the memory only. -/
theorem Same.eval_of_isPure (h : Same K σ σ') (he : isPure e = true) (hK : ∀ r ∈ regsOf e, K r) :
    (eval I e σ').1 = (eval I e σ).1 := by
  fun_induction isPure e with
  | case1 | case2 => rfl
  | case3 r => exact h.regs r (hK r (mem_singleton_self r))
  | case4 _ l r _ ihl ihr =>
    rw [Bool.and_eq_true] at he
    have hl := ihl he.1 fun r hr => hK r (mem_append_left _ hr)
    have hr := ihr he.2 fun r hr => hK r (mem_append_right _ hr)
    rw [eval_bin_fst he.1, eval_bin_fst he.1, hl, hr]
  | case5 a ih => rw [eval_mem_fst he, eval_mem_fst he, ih he hK, h.mem]
  | case6 | case7 | case8 => cases he

/-! ### Calls as a whole -/

theorem isWhole_of_isPure (h : isPure e = true) : isWhole e = true := by
  cases e with
  | call => cases h
  | missing | int | addr | temp | bin | mem | eseq => exact h

theorem isWhole_call_iff {f link : Expr} {args : List Expr} :
    isWhole (.call f args link) = true ↔
      isPure f = true ∧ (∀ a ∈ args, isPure a = true) ∧
        (link.isPresent = true → isPure link = true) := by
  rw [isWhole, Bool.and_eq_true, Bool.and_eq_true, all_eq_true, Bool.or_eq_true,
    Bool.not_eq_true', and_assoc]
  cases link.isPresent <;> simp

theorem mem_regsOfAll {es : List Expr} {r : Option Reg} :
    r ∈ regsOfAll es ↔ ∃ e ∈ es, r ∈ regsOf e := by
  induction es with
  | nil => simp [regsOfAll]
  | cons e es ih => simp [regsOfAll, ih]

/-- The link that a call passes. -/
def linkOf (I : Interp Mem) (link : Expr) (σ : Store Mem) : Option Int64 :=
  if link.isPresent then some (eval I link σ).1 else none

/-- A call of pure operands evaluates them all at the same store. -/
theorem eval_call_of_isWhole {f link : Expr} {args : List Expr}
    (h : isWhole (.call f args link) = true) (σ : Store Mem) :
    eval I (.call f args link) σ =
      I.invoke (eval I f σ).1 (args.map fun e => (eval I e σ).1) (linkOf I link σ) σ := by
  obtain ⟨hf, hargs, hlink⟩ := isWhole_call_iff.mp h
  rw [eval, linkOf]
  dsimp only
  rw [eval_snd_of_isPure hf, evalAll_snd_of_isPure hargs, evalAll_fst_of_isPure hargs]
  split
  · rename_i hp
    rw [eval_snd_of_isPure (hlink hp)]
  · rfl

/-- A call as a whole depends on its registers and the memory only. -/
theorem Same.eval (h : Same K σ σ') (he : isWhole e = true) (hK : ∀ r ∈ regsOf e, K r) :
    (eval I e σ').1 = (eval I e σ).1 ∧ Same K (eval I e σ).2 (eval I e σ').2 := by
  cases e with
  | call f args link =>
    obtain ⟨hf, hargs, hlink⟩ := isWhole_call_iff.mp he
    rw [eval_call_of_isWhole he, eval_call_of_isWhole he]
    rw [regsOf] at hK
    have h1 := h.eval_of_isPure (I := I) hf fun r hr =>
      hK r (mem_append_left _ (mem_append_left _ hr))
    have h2 : (args.map fun a => (Semantics.eval I a σ').1) =
        args.map fun a => (Semantics.eval I a σ).1 :=
      map_congr_left fun a ha => h.eval_of_isPure (hargs a ha) fun r hr =>
        hK r (mem_append_left _ (mem_append_right _ (mem_regsOfAll.mpr ⟨a, ha, hr⟩)))
    have h3 : linkOf I link σ' = linkOf I link σ := by
      unfold linkOf
      split
      · rename_i hp
        rw [h.eval_of_isPure (hlink hp) fun r hr => hK r (mem_append_right _ hr)]
      · rfl
    rw [h1, h2, h3]
    exact h.invoke _ _ _
  | missing | int | addr | temp | bin | mem | eseq =>
    have he' : isPure _ = true := he
    refine ⟨h.eval_of_isPure he' hK, ?_⟩
    rw [eval_snd_of_isPure he', eval_snd_of_isPure he']
    exact h

/-! ### Simple statements -/

theorem isSimple_cases (hx : isSimple x = true) :
    (∃ r s, x = .move (.temp r) s ∧ isWhole s = true) ∨
      (∃ a s, x = .move (.mem a) s ∧ isPure a = true ∧ isWhole s = true) ∨
      ∃ e, x = .eval e ∧ isWhole e = true := by
  unfold isSimple at hx
  split at hx
  · exact Or.inl ⟨_, _, rfl, hx⟩
  · rw [Bool.and_eq_true] at hx
    exact Or.inr (Or.inl ⟨_, _, rfl, hx.1, hx.2⟩)
  · exact Or.inr (Or.inr ⟨_, rfl, hx⟩)
  · cases hx

theorem isStep_of_isSimple (hx : isSimple x = true) : isStep x = true := by
  obtain ⟨r, s, rfl, -⟩ | ⟨a, s, rfl, -⟩ | ⟨e, rfl, -⟩ := isSimple_cases hx <;> rfl

theorem exec_fst_of_isSimple (hx : isSimple x = true) (σ : Store Mem) :
    (exec I x σ).1 = .next := by
  obtain ⟨r, s, rfl, -⟩ | ⟨a, s, rfl, -⟩ | ⟨e, rfl, -⟩ := isSimple_cases hx <;> rfl

theorem exec_move_mem {a s : Expr} (ha : isPure a = true) (σ : Store Mem) :
    (exec I (.move (.mem a) s) σ).2 =
      (eval I s σ).2.write I (eval I a σ).1 (eval I s σ).1 := by
  rw [exec, assign]
  dsimp only
  rw [eval_snd_of_isPure ha]

/-- A simple statement does the same wherever its registers and the memory are the same. -/
theorem Same.exec (h : Same K σ σ') (hx : isSimple x = true) (hK : ∀ r ∈ regsIn x, K r) :
    Same K (exec I x σ).2 (exec I x σ').2 := by
  obtain ⟨r, s, rfl, hs⟩ | ⟨a, s, rfl, ha, hs⟩ | ⟨e, rfl, he⟩ := isSimple_cases hx
  · obtain ⟨h1, h2⟩ := h.eval (I := I) hs fun r hr => hK r (mem_append_right _ hr)
    show Same K ((Semantics.eval I s σ).2.setReg r _) ((Semantics.eval I s σ').2.setReg r _)
    rw [h1]
    exact h2.setReg r _
  · obtain ⟨h1, h2⟩ := h.eval (I := I) hs fun r hr => hK r (mem_append_right _ hr)
    rw [exec_move_mem ha, exec_move_mem ha, h1,
      h.eval_of_isPure ha fun r hr => hK r (mem_append_left _ hr)]
    exact h2.write _ _
  · exact (h.eval he hK).2

theorem regsInAll_append (xs ys : List Stmt) :
    regsInAll (xs ++ ys) = regsInAll xs ++ regsInAll ys := by
  induction xs with
  | nil => rfl
  | cons x xs ih => rw [cons_append, regsInAll, regsInAll, ih, append_assoc]

theorem execAll_fst_of_isSimple (h : ∀ x ∈ xs, isSimple x = true) (σ : Store Mem) :
    (execAll I xs σ).1 = .next := by
  induction xs generalizing σ with
  | nil => rfl
  | cons x xs ih =>
    rw [execAll_cons_of_next (exec_fst_of_isSimple (h x mem_cons_self) σ)]
    exact ih (fun y hy => h y (mem_cons_of_mem x hy)) _

theorem execAll_snd_cons (hx : isSimple x = true) (σ : Store Mem) :
    (execAll I (x :: xs) σ).2 = (execAll I xs (exec I x σ).2).2 := by
  rw [execAll_cons_of_next (exec_fst_of_isSimple hx σ)]

theorem execAll_append_of_isSimple {ys : List Stmt} (h : ∀ x ∈ xs, isSimple x = true)
    (σ : Store Mem) : execAll I (xs ++ ys) σ = execAll I ys (execAll I xs σ).2 :=
  execAll_append_of_next (execAll_fst_of_isSimple h σ)

theorem Same.execAll (h : Same K σ σ') (hx : ∀ x ∈ xs, isSimple x = true)
    (hK : ∀ r ∈ regsInAll xs, K r) : Same K (execAll I xs σ).2 (execAll I xs σ').2 := by
  induction xs generalizing σ σ' with
  | nil => exact h
  | cons x xs ih =>
    have hx' := hx x mem_cons_self
    rw [execAll_snd_cons hx', execAll_snd_cons hx']
    refine ih (h.exec hx' fun r hr => hK r (mem_append_left _ hr))
      (fun y hy => hx y (mem_cons_of_mem x hy)) fun r hr => hK r (mem_append_right _ hr)

/-! ### Effects -/

/-- The change is summed up by the effects. -/
structure Changes (eff : Effects) (σ σ' : Store Mem) : Prop where
  regs : ∀ r, r ∉ eff.regs → σ'.regs r = σ.regs r
  mem : eff.memory = false → σ'.mem = σ.mem

theorem Changes.refl (eff : Effects) (σ : Store Mem) : Changes eff σ σ :=
  ⟨fun _ _ => rfl, fun _ => rfl⟩

theorem Changes.trans {eff eff' : Effects} (h : Changes eff σ σ') (h' : Changes eff' σ' σ'') :
    Changes (eff.also eff') σ σ'' := by
  refine ⟨fun r hr => ?_, fun hm => ?_⟩
  · have hr' : r ∉ eff.regs ++ eff'.regs := hr
    rw [mem_append, not_or] at hr'
    exact (h'.regs r hr'.2).trans (h.regs r hr'.1)
  · have hm' : (eff.memory || eff'.memory) = false := hm
    rw [Bool.or_eq_false_iff] at hm'
    exact (h'.mem hm'.2).trans (h.mem hm'.1)

theorem eval_changes (he : isWhole e = true) (σ : Store Mem) :
    Changes e.effects σ (eval I e σ).2 := by
  cases e with
  | call f args link =>
    rw [eval_call_of_isWhole he]
    exact ⟨fun _ _ => rfl, fun hm => by simp [Expr.effects, Effects.also, Effects.writesMemory] at hm⟩
  | missing | int | addr | temp | bin | mem | eseq =>
    rw [eval_snd_of_isPure he]
    exact .refl _ σ

/-- A simple statement changes no more than its effects say. -/
theorem exec_changes (hx : isSimple x = true) (σ : Store Mem) :
    Changes x.effects σ (exec I x σ).2 := by
  obtain ⟨r, s, rfl, hs⟩ | ⟨a, s, rfl, ha, hs⟩ | ⟨e, rfl, he⟩ := isSimple_cases hx
  · rw [Stmt.effects]
    have h := eval_changes (I := I) hs σ
    refine ⟨fun w hw => ?_, fun hm => h.mem hm⟩
    have hw' : w ∉ r :: s.effects.regs := hw
    rw [mem_cons, not_or] at hw'
    show Function.update (eval I s σ).2.regs r _ w = _
    rw [Function.update_of_ne hw'.1]
    exact h.regs w hw'.2
  · rw [exec_move_mem ha, Stmt.effects]
    have h := eval_changes (I := I) hs σ
    refine ⟨fun w hw => h.regs w fun hw' => hw ?_, fun hm => ?_⟩
    · exact mem_append_right _ hw'
    · simp [Effects.also, Effects.writesMemory] at hm
  · exact eval_changes he σ

theorem execAll_changes (h : ∀ x ∈ xs, isSimple x = true) (σ : Store Mem) :
    Changes (Stmt.effectsOf xs) σ (execAll I xs σ).2 := by
  induction xs generalizing σ with
  | nil => exact .refl _ σ
  | cons x xs ih =>
    have hx := h x mem_cons_self
    rw [execAll_snd_cons hx, Stmt.effectsOf]
    exact (exec_changes hx σ).trans (ih (fun y hy => h y (mem_cons_of_mem x hy)) _)

/-- Only statements write registers. -/
theorem eval_regs_of_isWhole (he : isWhole e = true) (σ : Store Mem) :
    (eval I e σ).2.regs = σ.regs := by
  cases e with
  | call f args link => rw [eval_call_of_isWhole he]; rfl
  | missing | int | addr | temp | bin | mem | eseq => rw [eval_snd_of_isPure he]

/-- Simple statements write registers that occur in them only. -/
theorem execAll_regs (h : ∀ x ∈ xs, isSimple x = true) {r : Option Reg} (hr : r ∉ regsInAll xs)
    (σ : Store Mem) : (execAll I xs σ).2.regs r = σ.regs r := by
  induction xs generalizing σ with
  | nil => rfl
  | cons x xs ih =>
    have hx := h x mem_cons_self
    rw [regsInAll, mem_append, not_or] at hr
    rw [execAll_snd_cons hx, ih (fun y hy => h y (mem_cons_of_mem x hy)) hr.2]
    obtain ⟨w, s, rfl, hs⟩ | ⟨a, s, rfl, ha, hs⟩ | ⟨e, rfl, he⟩ := isSimple_cases hx
    · have hrw : r ≠ w := fun hrw => hr.1 (mem_append_left _ (mem_singleton.mpr hrw))
      show Function.update (eval I s σ).2.regs w _ r = _
      rw [Function.update_of_ne hrw, eval_regs_of_isWhole hs]
    · rw [exec_move_mem ha]
      show (eval I s σ).2.regs r = _
      rw [eval_regs_of_isWhole hs]
    · show (eval I e σ).2.regs r = _
      rw [eval_regs_of_isWhole he]

end Codegen.Semantics
