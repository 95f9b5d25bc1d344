import Codegen.Proofs.Canonical.Fold
import Codegen.Proofs.Canonical.Shape
import Mathlib.Data.List.Basic

/-!
# Divisions by zero

The constant that an expression folds to can be read off its tree (`Expr.constant?`), and so can the
divisions whose divisor folds to zero, in the order in which they are evaluated (`Stmt.divisions`).
Canonicalization leaves one warning for each of these, in this order, and keeps them all: in the
canonical form they stand as divisions by the constant zero (`stmt_warns`).
-/

namespace Codegen

open List

/-! ### Divisions in trees -/

namespace Expr

/-- The constant, if the expression is one. -/
def int? : Expr → Option Int64
  | .int v => some v
  | _ => none

/-- The constant that the expression folds to, if it does. -/
def constant? : Expr → Option Int64
  | .int v => some v
  | .bin op l r _ => l.constant?.bind fun x => r.constant?.bind fun y => op.eval x y
  | .eseq _ v => v.constant?
  | .missing | .addr _ | .temp _ | .mem _ | .call .. => none

/-- Whether the expression folds to zero. -/
def foldsToZero (e : Expr) : Bool := e.constant? == some 0

end Expr

section

variable (zero : Expr → Bool)

mutual

/-- The positions of the divisions in an expression by what counts as zero, in the order in which they
are evaluated. -/
def Expr.divisions : Expr → List Int
  | .missing | .int _ | .addr _ | .temp _ => []
  | .bin op l r pos =>
    l.divisions ++ r.divisions ++ if op == .div && zero r then [pos] else []
  | .mem a => a.divisions
  | .call f args link => f.divisions ++ Expr.divisionsOf args ++ link.divisions
  | .eseq s v => s.divisions ++ v.divisions

/-- The positions of the divisions in several expressions. -/
def Expr.divisionsOf : List Expr → List Int
  | [] => []
  | e :: rest => e.divisions ++ Expr.divisionsOf rest

/-- The positions of the divisions in a statement. What is in the destination of a move is evaluated
before its source. -/
def Stmt.divisions : Stmt → List Int
  | .missing | .place _ => []
  | .move d s => d.divisions ++ s.divisions
  | .eval e => e.divisions
  | .jump d _ => d.divisions
  | .cjump _ l r _ _ => l.divisions ++ r.divisions
  | .seq list => Stmt.divisionsOf list

/-- The positions of the divisions in several statements. -/
def Stmt.divisionsOf : List Stmt → List Int
  | [] => []
  | s :: rest => s.divisions ++ Stmt.divisionsOf rest

end

theorem Expr.divisionsOf_eq (es : List Expr) :
    Expr.divisionsOf zero es = es.flatMap (Expr.divisions zero) := by
  induction es with
  | nil => rfl
  | cons e es ih => rw [Expr.divisionsOf, ih, flatMap_cons]

theorem Stmt.divisionsOf_append (xs ys : List Stmt) :
    Stmt.divisionsOf zero (xs ++ ys) = Stmt.divisionsOf zero xs ++ Stmt.divisionsOf zero ys := by
  induction xs with
  | nil => rfl
  | cons x xs ih => rw [cons_append, Stmt.divisionsOf, ih, Stmt.divisionsOf, append_assoc]

end

/-- The divisions by the constant zero in an expression. -/
abbrev Expr.zeroDivisions (e : Expr) : List Int := e.divisions (Expr.isInt 0)

/-- The divisions by the constant zero in statements. -/
abbrev Stmt.zeroDivisionsOf (xs : List Stmt) : List Int := Stmt.divisionsOf (Expr.isInt 0) xs

/-- The divisions by the constant zero in a hoisted expression. -/
def Hoisted.zeroDivisions (h : Hoisted) : List Int :=
  Stmt.zeroDivisionsOf h.pre ++ h.value.zeroDivisions

theorem Stmt.divisions_ofList (zero : Expr → Bool) (xs : List Stmt) :
    (Stmt.ofList xs).divisions zero = Stmt.divisionsOf zero xs := by
  unfold Stmt.ofList
  split
  · rw [Stmt.divisionsOf, Stmt.divisionsOf, append_nil]
  · rw [Stmt.divisions]

/-! ### Folding -/

namespace Expr

variable {op : Op} {l r e : Expr} {pos : Int}

theorem int?_eq_some {v : Int64} : e.int? = some v ↔ e = .int v := by
  cases e <;> simp [int?]

theorem isInt_eq (v : Int64) (e : Expr) : e.isInt v = (e.int? == some v) := by
  cases e <;> rfl

theorem eq_int_of_isInt {v : Int64} (h : e.isInt v = true) : e = .int v := by
  rwa [isInt_eq, beq_iff_eq, int?_eq_some] at h

theorem dividesByZero_eq (op : Op) (e : Expr) : dividesByZero op e = (op == .div && e.isInt 0) := by
  cases op <;> rfl

theorem dividesByZero_iff : dividesByZero op e = true ↔ op = .div ∧ e = .int 0 := by
  rw [dividesByZero_eq, Bool.and_eq_true, beq_iff_eq, isInt_eq, beq_iff_eq, int?_eq_some]

/-- A constant is folded to if both operands are constants and the operator is defined on them. -/
theorem int?_fold (op : Op) (l r : Expr) (pos : Int) :
    (fold op l r pos).int? = l.int?.bind fun x => r.int?.bind fun y => op.eval x y := by
  unfold fold
  split
  · rename_i hzero
    obtain ⟨rfl, rfl⟩ := dividesByZero_iff.mp hzero
    cases l with
    | int x => simp [int?, Op.eval]
    | missing | addr | temp | bin | mem | call | eseq => rfl
  · split
    · rename_i x y _
      show _ = op.eval x y
      cases op.eval x y with
      | some v => rfl
      | none => rfl
    · rename_i hint
      have hnone : (l.int?.bind fun x => r.int?.bind fun y => op.eval x y) = none := by
        cases hl : l.int? with
        | none => rfl
        | some x =>
          cases hr : r.int? with
          | none => rfl
          | some y => exact (hint x y (int?_eq_some.mp hl) (int?_eq_some.mp hr)).elim
      rw [hnone, foldOperands]
      split
      · rename_i e hdrop
        -- the neutral operand is a constant, so the other one is not
        rw [Option.eq_none_iff_forall_ne_some]
        intro v hv
        rw [int?_eq_some] at hv
        rcases Semantics.dropNeutral_cases hdrop with ⟨rfl, ⟨-, h⟩ | ⟨-, h⟩⟩ | ⟨rfl, ⟨-, h⟩ | ⟨-, h⟩⟩
        · exact hint _ _ (eq_int_of_isInt h) hv
        · exact hint _ _ (eq_int_of_isInt h) hv
        · exact hint _ _ hv (eq_int_of_isInt h)
        · exact hint _ _ hv (eq_int_of_isInt h)
      · split
        · rfl
        · rfl

/-- Folding keeps the divisions by zero of the operands, and the application if it is one. -/
theorem zeroDivisions_fold (op : Op) (l r : Expr) (pos : Int) :
    (fold op l r pos).zeroDivisions.Perm
      (l.zeroDivisions ++ r.zeroDivisions ++ if dividesByZero op r then [pos] else []) := by
  have hbin (a b : Expr) : (Expr.bin op a b pos).zeroDivisions =
      a.zeroDivisions ++ b.zeroDivisions ++ if dividesByZero op b then [pos] else [] := by
    rw [dividesByZero_eq, zeroDivisions, divisions]
  have hnot (b : Expr) (h : ¬(op = .div ∧ b = .int 0)) :
      (if dividesByZero op b then [pos] else []) = [] := if_neg fun hb => h (dividesByZero_iff.mp hb)
  rcases Semantics.fold_cases op l r pos with h | ⟨hcomm, h⟩ | ⟨e, hdrop, h⟩ |
    ⟨x, y, v, rfl, rfl, hv, h⟩ <;> rw [h]
  · rw [hbin]
  · have hop : op ≠ .div := by
      rintro rfl
      cases hcomm
    rw [hbin, hnot l fun hb => hop hb.1, hnot r fun hb => hop hb.1, append_nil, append_nil]
    exact perm_append_comm
  · rcases Semantics.dropNeutral_cases hdrop with ⟨rfl, hl⟩ | ⟨rfl, hr⟩
    · rw [hnot e (by rintro ⟨rfl, -⟩; simp at hl), append_nil]
      rcases hl with ⟨-, h⟩ | ⟨-, h⟩ <;> rw [eq_int_of_isInt h] <;> exact .refl _
    · rw [hnot r]
      · rcases hr with ⟨-, h⟩ | ⟨-, h⟩ <;> rw [eq_int_of_isInt h] <;>
          simp [zeroDivisions, divisions]
      · rintro ⟨rfl, rfl⟩
        simp [isInt] at hr
  · rw [hnot]
    · exact .refl _
    · rintro ⟨rfl, hy⟩
      cases hy
      simp [Op.eval] at hv

end Expr

namespace Canonical

open Pass Semantics

/-! ### Hoisting -/

/-- Saving operands moves their divisions to the moves, and saves no constants. -/
theorem saveClashing_divisions (eff : Effects) (os : List Operand) (c : Supply) :
    (Stmt.zeroDivisionsOf (saveClashing eff os c).1 ++
        (saveClashing eff os c).2.1.flatMap (·.value.zeroDivisions)).Perm
      (os.flatMap (·.value.zeroDivisions)) ∧
    (saveClashing eff os c).2.1.map (·.value.int?) = os.map (·.value.int?) := by
  induction os generalizing c with
  | nil => exact ⟨.refl _, rfl⟩
  | cons o os ih =>
    rw [saveClashing]
    split
    · obtain ⟨hperm, hint⟩ := ih c
      dsimp only
      rw [flatMap_cons, flatMap_cons, map_cons, map_cons, hint]
      exact ⟨(perm_append_comm_assoc _ _ _).trans (hperm.append_left _), rfl⟩
    · rename_i hclash
      obtain ⟨hperm, hint⟩ := ih c.freshReg.2
      have hnone : o.value.int? = none := by
        cases hv : o.value with
        | int v => simp [hv, Effects.commutes] at hclash
        | missing | addr | temp | bin | mem | call | eseq => rfl
      dsimp only
      rw [flatMap_cons, flatMap_cons, map_cons, map_cons, hint, hnone,
        Stmt.zeroDivisionsOf, Stmt.divisionsOf, append_assoc]
      exact ⟨hperm.append_left _, rfl⟩

theorem hoistAfter_divisions (pre : List Stmt) (done : List Operand) (ops : List Hoisted)
    (c : Supply) :
    (Stmt.zeroDivisionsOf (hoistAfter pre done ops c).1 ++
        (hoistAfter pre done ops c).2.1.flatMap (·.value.zeroDivisions)).Perm
      (Stmt.zeroDivisionsOf pre ++ done.flatMap (·.value.zeroDivisions) ++
        ops.flatMap Hoisted.zeroDivisions) ∧
    (hoistAfter pre done ops c).2.1.map (·.value.int?) =
      done.map (·.value.int?) ++ ops.map (·.value.int?) := by
  induction ops generalizing pre done c with
  | nil => simp [hoistAfter]
  | cons h ops ih =>
    rw [hoistAfter]
    split
    · rename_i hnil
      obtain ⟨hperm, hint⟩ := ih pre (done ++ [{ value := h.value }]) c
      have hd : h.zeroDivisions = h.value.zeroDivisions := by
        rw [Hoisted.zeroDivisions, isEmpty_iff.mp hnil]
        rfl
      refine ⟨hperm.trans (.of_eq ?_), hint.trans ?_⟩
      · simp [hd]
      · simp
    · obtain ⟨hsave, hkept⟩ := saveClashing_divisions (Stmt.effectsOf h.pre) done c
      generalize saveClashing (Stmt.effectsOf h.pre) done c = saved at hsave hkept ⊢
      obtain ⟨moves, done', c'⟩ := saved
      obtain ⟨hperm, hint⟩ := ih (pre ++ moves ++ h.pre) (done' ++ [{ value := h.value }]) c'
      refine ⟨hperm.trans (perm_iff_count.mpr fun pos => ?_), hint.trans ?_⟩
      · have hcount := hsave.count_eq pos
        simp only [Stmt.zeroDivisionsOf, Stmt.divisionsOf_append, flatMap_append,
          flatMap_cons, flatMap_nil, count_append, count_nil,
          Hoisted.zeroDivisions] at hcount ⊢
        omega
      · simp only at hkept
        simp [hkept]

/-! ### Warnings -/

/-- The warning about a division by zero at a position. -/
def divisionWarning (pos : Int) : Warning := ⟨pos, "division by zero"⟩

/-- A warning was left for each of the divisions `ds`, in their order, and `es` are the same. -/
structure Warned (ds es : List Int) (st st' : State) : Prop where
  warnings : st'.warnings = st.warnings ++ ds.map divisionWarning
  perm : es.Perm ds

section

variable {ds ds' es es' : List Int} {st st₁ st₂ : State}

theorem Warned.nil (st : State) : Warned [] [] st st := ⟨(append_nil _).symm, .refl _⟩

theorem Warned.append (h : Warned ds es st st₁) (h' : Warned ds' es' st₁ st₂) :
    Warned (ds ++ ds') (es ++ es') st st₂ :=
  ⟨by rw [h'.warnings, h.warnings, map_append, append_assoc], h.perm.append h'.perm⟩

/-- No warning is left for the same divisions in another order. -/
theorem Warned.reorder (h : Warned ds es st st₁) (hst : st₂.warnings = st₁.warnings)
    (hperm : es'.Perm es) : Warned ds es' st st₂ :=
  ⟨hst.trans h.warnings, hperm.trans h.perm⟩

theorem ends_warnDivision_warned (op : Op) (e : Expr) (pos : Int) :
    Ends (warnDivision op e pos) st (fun _ st' => Warned (if Expr.dividesByZero op e then [pos] else [])
      (if Expr.dividesByZero op e then [pos] else []) st st') fun _ => True := by
  unfold warnDivision
  split
  · exact ends_modify.mpr ⟨rfl, .refl _⟩
  · exact ends_pure.mpr (.nil _)

/-- Hoisting leaves no warnings and keeps divisions and constants. -/
theorem ends_pull_warned (hs : List Hoisted) : Ends (pull hs) st (fun p st' =>
    st'.warnings = st.warnings ∧
      (Stmt.zeroDivisionsOf p.1 ++ p.2.flatMap Expr.zeroDivisions).Perm
        (hs.flatMap Hoisted.zeroDivisions) ∧
      p.2.map Expr.int? = hs.map (·.value.int?)) fun _ => True := by
  refine ends_step.mpr ⟨rfl, ?_⟩
  obtain ⟨hperm, hint⟩ := hoistAfter_divisions [] [] hs st.supply
  dsimp only [hoistAll]
  rw [flatMap_map, map_map]
  exact ⟨hperm, hint⟩

theorem ends_pullPair_warned (a b : Hoisted) : Ends (pullPair a b) st (fun p st' =>
    st'.warnings = st.warnings ∧
      (Stmt.zeroDivisionsOf p.1 ++ (p.2.1.zeroDivisions ++ p.2.2.zeroDivisions)).Perm
        (a.zeroDivisions ++ b.zeroDivisions) ∧
      p.2.1.int? = a.value.int? ∧ p.2.2.int? = b.value.int?) fun _ => True := by
  refine (ends_pull_warned [a, b]).bind ?_
  rintro ⟨pre, values⟩ st₁ ⟨hst, hperm, hint⟩
  have hlen : values.length = 2 := by simpa using congrArg List.length hint
  obtain ⟨v, w, rfl⟩ := length_eq_two.mp hlen
  refine ends_pure.mpr ⟨hst, by simpa using hperm, ?_⟩
  simpa using hint

end

/-! ### Trees -/

theorem zeroDivisionsOf_concat (pre : List Stmt) (x : Stmt) :
    Stmt.zeroDivisionsOf (pre ++ [x]) = Stmt.zeroDivisionsOf pre ++ x.divisions (Expr.isInt 0) := by
  rw [Stmt.zeroDivisionsOf, Stmt.divisionsOf_append, Stmt.divisionsOf, Stmt.divisionsOf, append_nil]

theorem zeroDivisionsOf_evalStmts (h : Hoisted) :
    Stmt.zeroDivisionsOf (evalStmts h) = h.zeroDivisions := by
  rw [evalStmts, Hoisted.zeroDivisions]
  split
  · rename_i hconst
    cases hv : h.value with
    | int | addr => exact (append_nil _).symm
    | missing | temp | bin | mem | call | eseq =>
      rw [hv] at hconst
      cases hconst
  · rw [zeroDivisionsOf_concat, Stmt.divisions]

theorem zeroDivisions_callOf {values : List Expr} {args : Nat} {link : Expr}
    (hlen : values.length = args + 1 + (linkOperands link).length) :
    (callOf values args link.isPresent).zeroDivisions = values.flatMap Expr.zeroDivisions := by
  obtain ⟨f, as, ls, rfl, hone, hcall⟩ := exists_callOf hlen
  rw [hcall, Expr.zeroDivisions, Expr.divisions, Expr.divisionsOf_eq, flatMap_cons, flatMap_append,
    append_assoc]
  match ls, hone with
  | [], _ => rfl
  | [l], _ => rw [flatMap_singleton, headD_cons]

/-- The divisions in a call are those in its operands. -/
theorem divisions_call (zero : Expr → Bool) (f : Expr) (args : List Expr) (link : Expr) :
    (Expr.call f args link).divisions zero =
      (f :: (args ++ linkOperands link)).flatMap (Expr.divisions zero) := by
  rw [Expr.divisions, Expr.divisionsOf_eq, flatMap_cons, flatMap_append, append_assoc]
  cases link <;> simp [linkOperands, Expr.isPresent, Expr.divisions]

/-- A call of hoisted operands keeps their divisions, and is no constant. -/
theorem ends_callFrom_warned {hs : List Hoisted} {args : Nat} {link : Expr} {st : State} (whole : Bool)
    (hlen : hs.length = args + 1 + (linkOperands link).length) :
    Ends (callFrom hs args link.isPresent whole) st (fun h st' => st'.warnings = st.warnings ∧
      h.zeroDivisions.Perm (hs.flatMap Hoisted.zeroDivisions) ∧ h.value.int? = none)
      fun _ => True := by
  rw [callFrom]
  refine (ends_pull_warned hs).bind ?_
  rintro ⟨pre, values⟩ st₁ ⟨hst, hperm, hint⟩
  have hvalues : values.length = hs.length := by simpa using congrArg List.length hint
  rw [← zeroDivisions_callOf (hvalues.trans hlen)] at hperm
  cases whole with
  | true => exact ends_pure.mpr ⟨hst, hperm, rfl⟩
  | false =>
    dsimp only
    rw [if_neg Bool.false_ne_true, ends_bind]
    refine ends_step.mpr (ends_pure.mpr ⟨hst, ?_, rfl⟩)
    rw [Hoisted.zeroDivisions, zeroDivisionsOf_concat]
    simpa [Stmt.divisions, Expr.divisions] using hperm

theorem Warned.of_hoistedAll {es : List Expr} {hs : List Hoisted} {st st' : State}
    (h : HoistedAll (fun e _ st st' h => Warned (e.divisions Expr.foldsToZero) h.zeroDivisions st st' ∧
      h.value.int? = e.constant?) es st st' hs) :
    Warned (es.flatMap (Expr.divisions Expr.foldsToZero)) (hs.flatMap Hoisted.zeroDivisions) st st' := by
  induction h with
  | nil => exact .nil _
  | cons he _ ih => exact he.1.append ih

theorem hoisting_warned : Hoisting
    (fun e _ st st' h => Warned (e.divisions Expr.foldsToZero) h.zeroDivisions st st' ∧
      h.value.int? = e.constant?)
    (fun x st st' ys => Warned (x.divisions Expr.foldsToZero) (Stmt.zeroDivisionsOf ys) st st') where
  leaf {e _ _} hleaf := by
    cases e with
    | int | addr | temp => exact ⟨.nil _, rfl⟩
    | missing | bin | mem | call | eseq => cases hleaf
  bin {op l r pos} _ _ _ _ hl hr h1 h2 := by
    refine (ends_pullPair_warned hl hr).bind ?_
    rintro ⟨pre, a, b⟩ st₃ ⟨hst, hperm, ha, hb⟩
    dsimp only at hperm ha hb ⊢
    refine (ends_warnDivision_warned op b pos).bind fun _ st₄ h4 => ?_
    have hzero : Expr.dividesByZero op b = (op == .div && r.foldsToZero) := by
      rw [Expr.dividesByZero_eq, Expr.isInt_eq, hb, h2.2, Expr.foldsToZero]
    have hall := ((h1.1.append h2.1).reorder hst hperm).append h4
    have hfold := (Expr.zeroDivisions_fold op a b pos).append_left (Stmt.zeroDivisionsOf pre)
    rw [hzero] at hall hfold
    refine ends_pure.mpr ⟨hall.reorder rfl (hfold.trans (.of_eq ?_)), ?_⟩
    · simp only [append_assoc]
    · rw [Expr.int?_fold, ha, hb, h1.2, h2.2, Expr.constant?]
  mem h1 := ⟨h1.1, rfl⟩
  call hall := by
    refine (ends_callFrom_warned _ (by simpa [Nat.add_right_comm] using hall.length)).imp ?_
    rintro h st₂ ⟨hst, hperm, hint⟩
    rw [divisions_call]
    exact ⟨(Warned.of_hoistedAll hall).reorder hst hperm, hint⟩
  eseq h1 h2 := by
    refine ⟨?_, h2.2⟩
    rw [Hoisted.zeroDivisions, Stmt.zeroDivisionsOf, Stmt.divisionsOf_append, append_assoc]
    exact h1.append h2.1
  nil := .nil _
  cons h1 h2 := by
    rw [Stmt.zeroDivisionsOf, Stmt.divisionsOf_append]
    exact h1.append h2
  place := .nil _
  eval h1 := by
    rw [zeroDivisionsOf_evalStmts]
    exact h1.1
  jump _ h1 := by
    rw [zeroDivisionsOf_concat]
    exact h1.1
  cjump _ _ h1 h2 := by
    rw [branchStmts]
    refine (ends_pullPair_warned _ _).bind ?_
    rintro ⟨pre, a, b⟩ st₃ ⟨hst, hperm, -⟩
    have hall := (h1.1.append h2.1).reorder hst hperm
    dsimp only at hall ⊢
    split
    · refine ends_bind.mpr (ends_orTrap (fun holds _ => ends_pure.mpr ?_) fun _ => trivial)
      rw [zeroDivisionsOf_concat]
      exact hall
    · refine ends_pure.mpr ?_
      rw [zeroDivisionsOf_concat]
      exact hall
  toReg h1 := by
    rw [zeroDivisionsOf_concat]
    exact h1.1
  toFixed h1 := by
    rw [zeroDivisionsOf_concat]
    exact h1.1
  toMem _ h1 h2 := by
    refine (ends_pullPair_warned _ _).bind ?_
    rintro ⟨pre, a, b⟩ st₃ ⟨hst, hperm, -⟩
    refine ends_pure.mpr ?_
    rw [zeroDivisionsOf_concat]
    exact (h1.1.append h2.1).reorder hst hperm
  behind h1 h2 := by
    rw [Stmt.divisions, Expr.divisions, append_assoc, Stmt.zeroDivisionsOf, Stmt.divisionsOf_append]
    exact h1.append h2
  nothing hx := by
    obtain rfl | ⟨e, rfl, hconst⟩ := hx
    · exact .nil _
    · cases e with
      | int | addr => exact .nil _
      | missing | temp | bin | mem | call | eseq => cases hconst

/-- Canonicalization leaves a warning for each division whose divisor folds to zero, in the order in
which they are evaluated, and the canonical form has all of them as divisions by the constant zero.
What an expression folds to is the constant that is its canonical value. -/
theorem stmt_warns {s t : Stmt} {st st' : State} (h : stmt s st = .ok t st') :
    st'.warnings = st.warnings ++ (s.divisions Expr.foldsToZero).map divisionWarning ∧
      (t.divisions (Expr.isInt 0)).Perm (s.divisions Expr.foldsToZero) ∧
      ∀ (e : Expr) (whole : Bool) (x : Hoisted) (st₁ st₂ : State),
        hoistExpr e whole st₁ = .ok x st₂ → x.value.int? = e.constant? := by
  have hstmt : Ends (stmt s) st
      (fun t st' => Warned (s.divisions Expr.foldsToZero) (t.divisions (Expr.isInt 0)) st st')
      fun _ => True := by
    refine ends_map.mpr ((hoisting_warned.stmt s st).imp fun ys st₁ hys => ?_)
    rwa [Stmt.divisions_ofList]
  obtain ⟨hwarnings, hperm⟩ := hstmt.of_ok h
  exact ⟨hwarnings, hperm, fun e whole x st₁ st₂ hx => ((hoisting_warned.expr e whole st₁).of_ok hx).2⟩

/-- The case of a division by a difference that is zero inside of a destination, in front of one with
two constants. -/
theorem stmt_warns_twice :
    let r : Option Reg := some { pool := 0, id := 0, name := "a" }
    let s : Stmt := .move
      (.eseq (.eval (.bin .div (.temp r) (.bin .sub (.int 1) (.int 1) 2) 3)) (.mem (.temp r)))
      (.bin .div (.int 7) (.int 0) 5)
    ∃ t st, stmt s {} = .ok t st ∧ st.warnings = [divisionWarning 3, divisionWarning 5] ∧
      (t.divisions (Expr.isInt 0)).Perm [3, 5] := by
  intro r s
  have hrun : ∃ t st, stmt s {} = .ok t st := ⟨_, _, rfl⟩
  obtain ⟨t, st, hst⟩ := hrun
  obtain ⟨hwarnings, hperm, -⟩ := stmt_warns hst
  exact ⟨t, st, hst, hwarnings, hperm⟩

end Canonical

end Codegen
