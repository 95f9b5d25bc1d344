import Codegen.Proofs.Canonical.Shape
import Codegen.Proofs.Tree.Normal

/-!
# Canonical forms are normal

The canonical form of any tree that has one is made of atomic statements, behind which the value of an
expression is reduced or one call (`hoistStmt_clean`, `hoistExpr_clean`). So a canonical statement is
one atomic statement, or a sequence of none or at least two (`forms_normal`). Atomic statements and whole
expressions are their own canonical forms, for which nothing is handed out (`hoistStmt_of_atomic`,
`hoistExpr_of_whole`): canonicalizing twice is the same as once (`forms_idempotent`).
-/

namespace Codegen

open Pass Semantics List

/-- A canonical statement: an atomic one, or none or at least two of them in a sequence. -/
def Stmt.IsCanonical : Stmt → Prop
  | .seq list => list.length ≠ 1 ∧ ∀ x ∈ list, x.Atomic (·.isSome) fun _ => True
  | x => x.Atomic (·.isSome) fun _ => True

/-- A canonical expression: a whole one, perhaps behind a canonical statement that does something. -/
def Expr.IsCanonical : Expr → Prop
  | .eseq s v => s.IsCanonical ∧ s ≠ .seq [] ∧ v.Whole (·.isSome)
  | e => e.Whole (·.isSome)

theorem Stmt.IsCanonical.atomic {x : Stmt} (h : x.IsCanonical) (hx : ∀ list, x ≠ .seq list) :
    x.Atomic (·.isSome) fun _ => True := by
  cases x with
  | seq list => exact absurd rfl (hx list)
  | missing | move | eval | jump | cjump | place => exact h

theorem Expr.IsCanonical.whole {e : Expr} (h : e.IsCanonical) (he : ∀ s v, e ≠ .eseq s v) :
    e.Whole (·.isSome) := by
  cases e with
  | eseq s v => exact absurd rfl (he s v)
  | missing | int | addr | temp | bin | mem | call => exact h

theorem Expr.mem_dstsAll {es : List Expr} {e : Expr} {r : Option Reg} (he : e ∈ es)
    (hr : r ∈ e.dsts) : r ∈ Expr.dstsAll es := by
  induction he with
  | head => exact mem_append_left _ hr
  | tail _ _ ih => exact mem_append_right _ ih

namespace Canonical

variable {Q W : Supply → Option Reg → Prop} {s c c₁ c' : Supply} {xs ys : List Stmt}
  {hs hs' : List Hoisted} {h : Hoisted} {whole : Bool} {st : State}

/-! ### What canonical forms are made of -/

/-- Atomic statements over the registers that the supply has come to. -/
structure Clean (Q W : Supply → Option Reg → Prop) (c c' : Supply) (ys : List Stmt) : Prop where
  grows : c.Grows c'
  atomic : ∀ y ∈ ys, y.Atomic (Q c') (W c')

/-- Reduced values of operands, behind atomic statements. -/
structure CleanOperands (Q W : Supply → Option Reg → Prop) (c c' : Supply) (hs : List Hoisted) :
    Prop where
  pre : Clean Q W c c' (hs.flatMap (·.pre))
  values : ∀ h ∈ hs, h.value.Reduced (Q c')

/-- A value behind atomic statements, which may be a call only where that is allowed. -/
structure CleanValue (Q W : Supply → Option Reg → Prop) (whole : Bool) (c c' : Supply) (h : Hoisted) :
    Prop where
  pre : Clean Q W c c' h.pre
  value : h.value.Whole (Q c')
  reduced : whole = false → h.value.Reduced (Q c')

theorem Clean.nil (c : Supply) : Clean Q W c c [] := ⟨.refl c, nofun⟩

theorem Clean.concat {y : Stmt} (h : Clean Q W c c' xs) (hy : y.Atomic (Q c') (W c')) :
    Clean Q W c c' (xs ++ [y]) :=
  ⟨h.grows, forall_mem_append.mpr ⟨h.atomic, forall_mem_singleton.mpr hy⟩⟩

theorem CleanValue.operand (hh : CleanValue Q W false c c' h) : CleanOperands Q W c c' [h] :=
  ⟨by rw [flatMap_singleton]; exact hh.pre, forall_mem_singleton.mpr (hh.reduced rfl)⟩

theorem CleanValue.of_reduced (hpre : Clean Q W c c' h.pre) (hval : h.value.Reduced (Q c')) :
    CleanValue Q W whole c c' h := ⟨hpre, hval.whole, fun _ => hval⟩

/-- The values of a callee, arguments and a link make a whole expression. -/
theorem whole_callOf {P : Option Reg → Prop} {values : List Expr} {args : Nat} {link : Expr}
    (hlen : values.length = args + 1 + (linkOperands link).length)
    (hvals : ∀ e ∈ values, e.Reduced P) : (callOf values args link.isPresent).Whole P := by
  obtain ⟨f, as, ls, rfl, -, hcall⟩ := exists_callOf hlen
  rw [forall_mem_cons, forall_mem_append] at hvals
  rw [hcall]
  refine ⟨hvals.1, hvals.2.1, fun hp => ?_⟩
  cases ls with
  | nil => cases hp
  | cons l ls => exact hvals.2.2 l mem_cons_self

section Operands

variable (hQ : s.Keeps Q) (hW : s.Keeps W) {os : List Operand}
include hQ hW

theorem Clean.append (h : Clean Q W c c₁ xs) (h' : Clean Q W c₁ c' ys) :
    Clean Q W c c' (xs ++ ys) :=
  ⟨h.grows.trans h'.grows, forall_mem_append.mpr ⟨fun x hx =>
    (h.atomic x hx).mono (fun _ => hQ.mono h'.grows) fun _ => hW.mono h'.grows, h'.atomic⟩⟩

theorem CleanOperands.append (h : CleanOperands Q W c c₁ hs) (h' : CleanOperands Q W c₁ c' hs') :
    CleanOperands Q W c c' (hs ++ hs') where
  pre := by
    rw [flatMap_append]
    exact h.pre.append hQ hW h'.pre
  values := forall_mem_append.mpr ⟨fun x hx =>
    (h.values x hx).mono fun _ => hQ.mono h'.pre.grows, h'.values⟩

theorem savable_reduced :
    Savable s (fun c e => e.Reduced (Q c)) fun c y => y.Atomic (Q c) (W c) where
  value hc h := h.mono fun _ => hQ.mono hc
  stmt hc h := h.mono (fun _ => hQ.mono hc) fun _ => hW.mono hc
  fresh hs := hQ.fresh _ hs
  save hs h := ⟨hW.fresh _ hs, h.whole⟩

theorem CleanOperands.ends_pull (h : CleanOperands Q W c st.supply hs) (hs' : s.Grows c) :
    Ends (pull hs) st (fun p st' => Clean Q W c st'.supply p.1 ∧ p.2.length = hs.length ∧
      ∀ e ∈ p.2, e.Reduced (Q st'.supply)) fun _ => True := by
  refine (ends_pull_savable (savable_reduced hQ hW) (hs'.trans h.pre.grows) fun x hx =>
    ⟨fun y hy => h.pre.atomic y (mem_flatMap.mpr ⟨x, hx, hy⟩), h.values x hx⟩).imp ?_
  rintro p st' ⟨hadv, hpre, hlen, hvals⟩
  exact ⟨⟨h.pre.grows.trans hadv.grows, hpre⟩, hlen, hvals⟩

theorem ends_pullPair_clean {a b : Hoisted} (ha : CleanValue Q W false c c₁ a)
    (hb : CleanValue Q W false c₁ st.supply b) (hs' : s.Grows c) :
    Ends (pullPair a b) st (fun p st' => Clean Q W c st'.supply p.1 ∧
      p.2.1.Reduced (Q st'.supply) ∧ p.2.2.Reduced (Q st'.supply)) fun _ => True := by
  rw [pullPair]
  refine ((ha.operand.append hQ hW hb.operand).ends_pull hQ hW hs').bind ?_
  rintro ⟨pre, values⟩ st₁ ⟨hclean, hlen, hvals⟩
  obtain ⟨x, y, rfl⟩ := length_eq_two.mp hlen
  exact ends_pure.mpr ⟨hclean, hvals x mem_cons_self, hvals y (by simp)⟩

/-! ### Forms of expressions and statements -/

/-- A call of hoisted operands, which goes through a fresh register unless it may stay. -/
theorem CleanOperands.ends_call {args : Nat} {link : Expr} (whole : Bool)
    (h : CleanOperands Q W c st.supply hs) (hlen : hs.length = args + 1 + (linkOperands link).length)
    (hs' : s.Grows c) :
    Ends (callFrom hs args link.isPresent whole) st
      (fun x st' => CleanValue Q W whole c st'.supply x) fun _ => True := by
  rw [callFrom]
  refine (h.ends_pull hQ hW hs').bind ?_
  rintro ⟨pre, values⟩ st₁ ⟨hclean, hlen', hvals⟩
  have hcall : (callOf values args link.isPresent).Whole (Q st₁.supply) :=
    whole_callOf (hlen'.trans hlen) hvals
  cases whole with
  | true => exact ends_pure.mpr ⟨hclean, hcall, by simp⟩
  | false =>
    dsimp only
    rw [if_neg Bool.false_ne_true, ends_bind]
    refine ends_step.mpr (ends_pure.mpr ?_)
    have hgrows := st₁.supply.grows_freshReg
    have hbase := hs'.trans hclean.grows
    refine .of_reduced (Clean.concat ⟨hclean.grows.trans hgrows, fun y hy => ?_⟩ ⟨?_, ?_⟩) ?_
    · exact (hclean.atomic y hy).mono (fun _ => hQ.mono hgrows) fun _ => hW.mono hgrows
    · exact hW.fresh _ hbase
    · exact hcall.mono fun _ => hQ.mono hgrows
    · exact hQ.fresh _ hbase

/-- A conditional jump on hoisted operands, which is decided between constants. -/
theorem branchStmts_clean {cond : Cond} {l r : Hoisted} {t f : Option Label}
    (hl : CleanValue Q W false c c₁ l) (hr : CleanValue Q W false c₁ st.supply r)
    (ht : t.isSome = true) (hf : f.isSome = true) (hs' : s.Grows c) :
    Ends (branchStmts cond l r t f) st (fun ys st' => Clean Q W c st'.supply ys) fun _ => True := by
  rw [branchStmts]
  refine (ends_pullPair_clean hQ hW hl hr hs').bind ?_
  rintro ⟨pre, a, b⟩ st₁ ⟨hclean, ha, hb⟩
  dsimp only
  split
  · rw [ends_bind]
    refine ends_orTrap (fun holds _ => ?_) fun _ => trivial
    exact ends_pure.mpr (hclean.concat ⟨trivial, cons_ne_nil _ _⟩)
  · rename_i hne
    exact ends_pure.mpr (hclean.concat ⟨ha, hb, fun x y h1 h2 => hne x y h1 h2, ht, hf⟩)

end Operands

theorem CleanValue.evalStmts (hh : CleanValue Q W whole c c' h) : Clean Q W c c' (evalStmts h) := by
  unfold Canonical.evalStmts
  split
  · exact hh.pre
  · rename_i hconst
    exact hh.pre.concat ⟨hh.value, Bool.eq_false_iff.mpr hconst⟩

/-! ### The whole of a tree -/

section Trees

variable (hQ : s.Keeps Q) (hW : s.Keeps W)
include hQ hW

theorem CleanOperands.of_hoistedAll {es : List Expr} {st st' : State}
    (h : HoistedAll (fun _ w st st' h => CleanValue Q W w st.supply st'.supply h) es st st' hs) :
    CleanOperands Q W st.supply st'.supply hs := by
  induction h with
  | nil => exact ⟨.nil _, nofun⟩
  | cons he _ ih => exact he.operand.append hQ hW ih

theorem hoisting_clean : Hoisting
    (fun e w st st' h => ((∀ r ∈ regsOf e, r.isSome = true → Q s r) ∧ ∀ r ∈ e.dsts, W s r) ∧
      s.Grows st.supply → CleanValue Q W w st.supply st'.supply h)
    (fun x st st' ys => ((∀ r ∈ regsIn x, r.isSome = true → Q s r) ∧ ∀ r ∈ x.dsts, W s r) ∧
      s.Grows st.supply → Clean Q W st.supply st'.supply ys) where
  leaf {e _ _} hleaf := fun ⟨⟨he, _⟩, hs⟩ => by
    cases e with
    | int | addr => exact .of_reduced (.nil _) trivial
    | temp r =>
      cases r with
      | none => cases hleaf
      | some r => exact .of_reduced (.nil _) (hQ.mono hs (he _ (mem_singleton_self _) rfl))
    | missing | bin | mem | call | eseq => cases hleaf
  bin h1 h2 := ends_of_imp fun ⟨⟨he, hd⟩, hs⟩ => by
    rw [regsOf, forall_mem_append] at he
    rw [Expr.dsts, forall_mem_append] at hd
    have h1 := h1 ⟨⟨he.1, hd.1⟩, hs⟩
    have h2 := h2 ⟨⟨he.2, hd.2⟩, hs.trans h1.pre.grows⟩
    refine (ends_pullPair_clean hQ hW h1 h2 hs).bind ?_
    rintro ⟨pre, a, b⟩ st₃ ⟨hclean, ha, hb⟩
    refine (ends_warnDivision _ b _).bind fun _ st₄ h4 => ?_
    rw [← h4] at hclean ha hb
    exact ends_pure.mpr (.of_reduced hclean (Expr.reduced_fold ha hb))
  mem h1 h := .of_reduced (h1 h).pre ((h1 h).reduced rfl)
  call hall := ends_of_imp fun ⟨⟨he, hd⟩, hs⟩ => by
    rw [regsOf, forall_mem_append, forall_mem_append] at he
    rw [Expr.dsts, forall_mem_append, forall_mem_append] at hd
    have hargs (e : Expr) (h : e ∈ _) := And.intro
      (fun r hr => he.1.2 r (mem_regsOfAll.mpr ⟨e, h, hr⟩))
      fun r hr => hd.1.2 r (Expr.mem_dstsAll h hr)
    have hlen := hall.length
    have hall := hall.of_imp (fun hst h => hst.trans h.pre.grows)
      (forall_mem_operands ⟨he.1.1, hd.1.1⟩ hargs fun _ => ⟨he.2, hd.2⟩) hs
    exact (CleanOperands.of_hoistedAll hQ hW hall).ends_call hQ hW _
      (by simpa [Nat.add_right_comm] using hlen) hs
  eseq h1 h2 := fun ⟨⟨he, hd⟩, hs⟩ => by
    rw [regsOf, forall_mem_append] at he
    rw [Expr.dsts, forall_mem_append] at hd
    have h1 := h1 ⟨⟨he.1, hd.1⟩, hs⟩
    have h2 := h2 ⟨⟨he.2, hd.2⟩, hs.trans h1.grows⟩
    exact ⟨h1.append hQ hW h2.pre, h2.value, h2.reduced⟩
  nil _ := .nil _
  cons h1 h2 := fun ⟨⟨hx, hd⟩, hs⟩ => by
    rw [regsIn, regsInAll, forall_mem_append] at hx
    rw [Stmt.dsts, Stmt.dstsAll, forall_mem_append] at hd
    have h1 := h1 ⟨⟨hx.1, hd.1⟩, hs⟩
    exact h1.append hQ hW (h2 ⟨⟨hx.2, hd.2⟩, hs.trans h1.grows⟩)
  place _ := ⟨.refl _, forall_mem_singleton.mpr rfl⟩
  eval h1 h := (h1 h).evalStmts
  jump ht h1 h := (h1 h).pre.concat ⟨(h1 h).reduced rfl, ht⟩
  cjump ht hf h1 h2 := ends_of_imp fun ⟨⟨hx, hd⟩, hs⟩ => by
    rw [regsIn, forall_mem_append] at hx
    rw [Stmt.dsts, forall_mem_append] at hd
    have h1 := h1 ⟨⟨hx.1, hd.1⟩, hs⟩
    exact branchStmts_clean hQ hW h1 (h2 ⟨⟨hx.2, hd.2⟩, hs.trans h1.pre.grows⟩) ht hf hs
  toReg h1 := fun ⟨⟨hx, hd⟩, hs⟩ => by
    rw [regsIn, forall_mem_append] at hx
    rw [Stmt.dsts, forall_mem_append] at hd
    have h1 := h1 ⟨⟨hx.2, hd.2⟩, hs⟩
    exact h1.pre.concat
      ⟨hW.mono (hs.trans h1.pre.grows) (hd.1 _ (mem_singleton_self _)), h1.value⟩
  toFixed h1 h := (h1 h).pre.concat ⟨trivial, .inr ⟨rfl, (h1 h).value⟩⟩
  toMem _ h1 h2 := ends_of_imp fun ⟨⟨hx, hd⟩, hs⟩ => by
    rw [regsIn, forall_mem_append] at hx
    rw [Stmt.dsts, forall_mem_append] at hd
    have h1 := h1 ⟨⟨hx.1, hd.1⟩, hs⟩
    have h2 := h2 ⟨⟨hx.2, hd.2⟩, hs.trans h1.pre.grows⟩
    refine (ends_pullPair_clean hQ hW h1 h2 hs).bind ?_
    rintro ⟨pre, a', e'⟩ st₃ ⟨hclean, ha', he'⟩
    exact ends_pure.mpr (hclean.concat ⟨ha', .inl he'⟩)
  behind h1 h2 := fun ⟨⟨hx, hd⟩, hs⟩ => by
    rw [regsIn, regsOf, append_assoc, forall_mem_append] at hx
    rw [Stmt.dsts, Expr.dstsTo, append_assoc, forall_mem_append] at hd
    have h1 := h1 ⟨⟨hx.1, hd.1⟩, hs⟩
    exact h1.append hQ hW (h2 ⟨⟨hx.2, hd.2⟩, hs.trans h1.grows⟩)
  nothing _ _ := .nil _

theorem hoistExpr_clean {st : State} (e : Expr) (whole : Bool)
    (he : ∀ r ∈ regsOf e, r.isSome = true → Q s r) (hd : ∀ r ∈ e.dsts, W s r)
    (hs : s.Grows st.supply) :
    Ends (hoistExpr e whole) st (fun h st' => CleanValue Q W whole st.supply st'.supply h)
      fun _ => True :=
  ((hoisting_clean hQ hW).expr e whole st).imp fun _ _ h => h ⟨⟨he, hd⟩, hs⟩

theorem hoistStmt_clean {st : State} (x : Stmt) (hx : ∀ r ∈ regsIn x, r.isSome = true → Q s r)
    (hd : ∀ r ∈ x.dsts, W s r) (hs : s.Grows st.supply) :
    Ends (hoistStmt x) st (fun ys st' => Clean Q W st.supply st'.supply ys) fun _ => True :=
  ((hoisting_clean hQ hW).stmt x st).imp fun _ _ h => h ⟨⟨hx, hd⟩, hs⟩

end Trees

/-! ### Canonical forms of canonical forms -/

/-- Operands without statements stay as they are. -/
theorem hoistAfter_values (pre : List Stmt) (os : List Operand) (es : List Expr) (c : Supply) :
    hoistAfter pre os (es.map fun e => ⟨[], e⟩) c =
      (pre, os ++ es.map fun e => { value := e }, c) := by
  induction es generalizing os with
  | nil => rw [map_nil, map_nil, append_nil, hoistAfter]
  | cons e es ih =>
    show hoistAfter pre (os ++ [{ value := e }]) (es.map fun e => ⟨[], e⟩) c = _
    rw [ih, append_assoc]
    rfl

theorem hoistAll_values (es : List Expr) (c : Supply) :
    hoistAll (es.map fun e => ⟨[], e⟩) c = ([], es, c) := by
  rw [hoistAll, hoistAfter_values]
  simp [Function.comp_def]

theorem ends_pull_values {err : Failure → Prop} (es : List Expr) :
    Ends (pull (es.map fun e => ⟨[], e⟩)) st
      (fun p st' => p = ([], es) ∧ st'.supply = st.supply) err := by
  rw [pull, ends_step, hoistAll_values]
  exact ⟨rfl, rfl⟩

theorem ends_pullPair_values {err : Failure → Prop} (a b : Expr) :
    Ends (pullPair ⟨[], a⟩ ⟨[], b⟩) st
      (fun p st' => p = ([], a, b) ∧ st'.supply = st.supply) err := by
  rw [pullPair]
  refine (ends_pull_values [a, b]).bind ?_
  rintro _ st₁ ⟨rfl, hsupply⟩
  exact ends_pure.mpr ⟨rfl, hsupply⟩

/-- A reduced expression is its own canonical form. -/
theorem hoistExpr_of_reduced {e : Expr} (he : e.Reduced (·.isSome)) (whole : Bool) (st : State) :
    Ends (hoistExpr e whole) st (fun h st' => h = ⟨[], e⟩ ∧ st'.supply = st.supply)
      fun _ => False := by
  induction e using Expr.Reduced.induct generalizing whole st with
  | case1 v | case2 l =>
    rw [hoistExpr]
    exact ends_pure.mpr ⟨rfl, rfl⟩
  | case3 r =>
    cases r with
    | none => cases he
    | some r =>
      rw [hoistExpr]
      exact ends_pure.mpr ⟨rfl, rfl⟩
  | case4 op l r pos ihl ihr =>
    obtain ⟨hl, hr, hfold⟩ := he
    rw [hoistExpr]
    refine (ihl hl false st).bind ?_
    rintro _ st₁ ⟨rfl, h1⟩
    refine (ihr hr false st₁).bind ?_
    rintro _ st₂ ⟨rfl, h2⟩
    refine (ends_pullPair_values l r).bind ?_
    rintro _ st₃ ⟨rfl, h3⟩
    refine (ends_warnDivision op r pos).bind fun _ st₄ h4 => ?_
    refine ends_pure.mpr ⟨?_, ((h4.trans h3).trans h2).trans h1⟩
    rw [hfold]
  | case5 a ih =>
    rw [hoistExpr]
    refine (ih he false st).bind ?_
    rintro _ st₁ ⟨rfl, h1⟩
    exact ends_pure.mpr ⟨rfl, h1⟩
  | case6 | case7 | case8 => cases he

theorem hoistArgs_of_reduced {es : List Expr} (hes : ∀ e ∈ es, e.Reduced (·.isSome)) (i : Nat)
    (st : State) : Ends (hoistArgs i es) st
      (fun hs st' => hs = es.map (fun e => ⟨[], e⟩) ∧ st'.supply = st.supply) fun _ => False := by
  induction es generalizing i st with
  | nil =>
    rw [hoistArgs]
    exact ends_pure.mpr ⟨rfl, rfl⟩
  | cons e es ih =>
    rw [forall_mem_cons] at hes
    rw [hoistArgs]
    refine ((hoistExpr_of_reduced hes.1 false st).within_of_returns _).bind ?_
    rintro _ st₁ ⟨rfl, h1⟩
    refine (ih hes.2 (i + 1) st₁).bind ?_
    rintro _ st₂ ⟨rfl, h2⟩
    exact ends_pure.mpr ⟨rfl, h2.trans h1⟩

/-- Where a call may stay, a whole expression is its own canonical form. -/
theorem hoistExpr_of_whole {e : Expr} (he : e.Whole (·.isSome)) (st : State) :
    Ends (hoistExpr e true) st (fun h st' => h = ⟨[], e⟩ ∧ st'.supply = st.supply)
      fun _ => False := by
  cases e with
  | missing | int | addr | temp | bin | mem | eseq => exact hoistExpr_of_reduced he true st
  | call f args link =>
    obtain ⟨hf, hargs, hlink⟩ := he
    rw [hoistExpr]
    refine ((hoistExpr_of_reduced hf false st).within_of_returns _).bind ?_
    rintro _ st₁ ⟨rfl, h1⟩
    refine (hoistArgs_of_reduced hargs 0 st₁).bind ?_
    rintro _ st₂ ⟨rfl, h2⟩
    -- with the link or without one, the operands make the same call again
    have hcall : ∀ st', st'.supply = st₂.supply → Ends (do
        let p ← pull ((f :: (args ++ linkOperands link)).map fun e => ⟨[], e⟩)
        return (⟨p.1, callOf p.2 args.length link.isPresent⟩ : Hoisted)) st'
        (fun h st' => h = ⟨[], .call f args link⟩ ∧ st'.supply = st.supply) fun _ => False := by
      intro st' hsupply
      refine (ends_pull_values _).bind ?_
      rintro _ st₃ ⟨rfl, h3⟩
      refine ends_pure.mpr ⟨?_, ((h3.trans hsupply).trans h2).trans h1⟩
      rw [callOf_append f args (linkOperands link) _ _ rfl (by rw [linkOperands]; split <;> rfl)]
      cases link <;> rfl
    dsimp only
    split
    · rename_i hp
      rw [ends_bind, ends_map]
      refine ((hoistExpr_of_reduced (hlink hp) false st₂).within_of_returns _).imp ?_
      rintro _ st₃ ⟨rfl, h3⟩
      have h := hcall st₃ h3
      rw [linkOperands, if_pos hp, map_cons, map_append] at h
      exact h
    · rename_i hp
      have h := hcall st₂ rfl
      rw [linkOperands, if_neg hp, map_cons, map_append] at h
      rw [pure_bind]
      exact h

/-- An atomic statement is its own canonical form. -/
theorem hoistStmt_of_atomic {x : Stmt} {W : Option Reg → Prop} (hx : x.Atomic (·.isSome) W)
    (st : State) :
    Ends (hoistStmt x) st (fun ys st' => ys = [x] ∧ st'.supply = st.supply) fun _ => False := by
  cases x with
  | missing | seq => cases hx
  | place l =>
    obtain ⟨l, rfl⟩ := Option.isSome_iff_exists.mp hx
    rw [hoistStmt]
    exact ends_pure.mpr ⟨rfl, rfl⟩
  | eval e =>
    rw [hoistStmt, ends_map]
    refine (hoistExpr_of_whole hx.1 st).imp ?_
    rintro _ st₁ ⟨rfl, h1⟩
    refine ⟨?_, h1⟩
    rw [evalStmts, if_neg (by rw [hx.2]; exact Bool.false_ne_true)]
    rfl
  | jump d targets =>
    rw [hoistStmt, if_neg (by rw [List.isEmpty_iff]; exact hx.2)]
    dsimp only
    refine (hoistExpr_of_reduced hx.1 false st).bind ?_
    rintro _ st₁ ⟨rfl, h1⟩
    exact ends_pure.mpr ⟨rfl, h1⟩
  | cjump cond l r t f =>
    obtain ⟨hl, hr, hne, ht, hf⟩ := hx
    obtain ⟨t, rfl⟩ := Option.isSome_iff_exists.mp ht
    obtain ⟨f, rfl⟩ := Option.isSome_iff_exists.mp hf
    rw [hoistStmt, if_neg (show ¬ ((some t).isNone || (some f).isNone) = true from
      Bool.false_ne_true)]
    dsimp only
    refine (hoistExpr_of_reduced hl false st).bind ?_
    rintro _ st₁ ⟨rfl, h1⟩
    refine (hoistExpr_of_reduced hr false st₁).bind ?_
    rintro _ st₂ ⟨rfl, h2⟩
    rw [branchStmts]
    refine (ends_pullPair_values l r).bind ?_
    rintro _ st₃ ⟨rfl, h3⟩
    dsimp only
    split
    · exact absurd rfl (hne _ _ rfl)
    · exact ends_pure.mpr ⟨rfl, (h3.trans h2).trans h1⟩
  | move d e =>
    rw [hoistStmt]
    cases d with
    | missing | int | addr | bin | call | eseq => cases hx
    | temp r =>
      rw [hoistMove]
      refine (hoistExpr_of_whole hx.2 st).bind ?_
      rintro _ st₁ ⟨rfl, h1⟩
      exact ends_pure.mpr ⟨rfl, h1⟩
    | mem a =>
      have hsrc (st : State) : Ends (hoistExpr e (isFixedAddress a)) st
          (fun h st' => h = ⟨[], e⟩ ∧ st'.supply = st.supply) fun _ => False := by
        obtain hred | ⟨hfixed, hwhole⟩ := hx.2
        · exact hoistExpr_of_reduced hred _ st
        · rw [hfixed]
          exact hoistExpr_of_whole hwhole st
      rw [hoistMove]
      refine (hoistExpr_of_reduced hx.1 false st).bind ?_
      rintro _ st₁ ⟨rfl, h1⟩
      refine (hsrc st₁).bind ?_
      rintro _ st₂ ⟨rfl, h2⟩
      refine (ends_pullPair_values a e).bind ?_
      rintro _ st₃ ⟨rfl, h3⟩
      exact ends_pure.mpr ⟨rfl, (h3.trans h2).trans h1⟩

theorem hoistList_of_atomic {list : List Stmt} {W : Option Reg → Prop}
    (hlist : ∀ x ∈ list, x.Atomic (·.isSome) W) (i : Nat) (st : State) :
    Ends (hoistList i list) st (fun ys st' => ys = list ∧ st'.supply = st.supply)
      fun _ => False := by
  induction list generalizing i st with
  | nil =>
    rw [hoistList]
    exact ends_pure.mpr ⟨rfl, rfl⟩
  | cons x xs ih =>
    rw [forall_mem_cons] at hlist
    rw [hoistList]
    refine ((hoistStmt_of_atomic hlist.1 st).within_of_returns _).bind ?_
    rintro _ st₁ ⟨rfl, h1⟩
    refine (ih hlist.2 (i + 1) st₁).bind ?_
    rintro _ st₂ ⟨rfl, h2⟩
    exact ends_pure.mpr ⟨rfl, h2.trans h1⟩

/-- The parts of a canonical statement are found again. -/
theorem hoistStmt_of_isCanonical {x : Stmt} (hx : x.IsCanonical) (st : State) :
    Ends (hoistStmt x) st (fun ys st' => Stmt.ofList ys = x ∧ (ys = [] → x = .seq []) ∧
      st'.supply = st.supply) fun _ => False := by
  cases x with
  | seq list =>
    rw [hoistStmt]
    refine (hoistList_of_atomic hx.2 0 st).imp ?_
    rintro ys st₁ ⟨rfl, h1⟩
    refine ⟨?_, congrArg _, h1⟩
    obtain _ | ⟨y, _ | ⟨z, ys⟩⟩ := ys
    · rfl
    · exact absurd rfl hx.1
    · rfl
  | missing | move | eval | jump | cjump | place =>
    refine (hoistStmt_of_atomic (hx.atomic (by simp)) st).imp ?_
    rintro _ st₁ ⟨rfl, h1⟩
    exact ⟨rfl, by simp, h1⟩

theorem stmt_of_isCanonical {x : Stmt} (hx : x.IsCanonical) (st : State) :
    Ends (stmt x) st (fun y st' => y = x ∧ st'.supply = st.supply) fun _ => False := by
  rw [stmt, ends_map]
  exact (hoistStmt_of_isCanonical hx st).imp fun ys st₁ h => ⟨h.1, h.2.2⟩

theorem expr_of_isCanonical {e : Expr} (he : e.IsCanonical) (st : State) :
    Ends (expr e) st (fun v st' => v = e ∧ st'.supply = st.supply) fun _ => False := by
  rw [expr, ends_map]
  cases e with
  | eseq x v =>
    obtain ⟨hx, hne, hv⟩ := he
    rw [hoistExpr]
    refine (hoistStmt_of_isCanonical hx st).bind ?_
    rintro ys st₁ ⟨rfl, hnil, h1⟩
    refine (hoistExpr_of_whole hv st₁).bind ?_
    rintro _ st₂ ⟨rfl, h2⟩
    refine ends_pure.mpr ⟨?_, h2.trans h1⟩
    rw [append_nil, Hoisted.toExpr, if_neg fun h => hne (hnil (isEmpty_iff.mp h))]
  | missing | int | addr | temp | bin | mem | call =>
    refine (hoistExpr_of_whole (he.whole (by simp)) st).imp ?_
    rintro _ st₁ ⟨rfl, h1⟩
    exact ⟨rfl, h1⟩

/-! ### The normal form -/

theorem isCanonical_ofList {ys : List Stmt} (h : ∀ y ∈ ys, y.Atomic (·.isSome) fun _ => True) :
    (Stmt.ofList ys).IsCanonical := by
  match ys with
  | [] => exact ⟨Nat.zero_ne_one, nofun⟩
  | y :: z :: rest => exact ⟨by simp, h⟩
  | [y] =>
    have hy := h y mem_cons_self
    cases y with
    | seq => cases hy
    | missing | move | eval | jump | cjump | place => exact hy

theorem ofList_ne_nil {ys : List Stmt} (h : ∀ y ∈ ys, y.Atomic (·.isSome) fun _ => True) (hne : ys ≠ []) :
    Stmt.ofList ys ≠ .seq [] := by
  match ys with
  | [] => exact absurd rfl hne
  | y :: z :: rest => nofun
  | [y] =>
    rintro rfl
    exact h _ mem_cons_self

/-- Any register will do, as long as there is one. -/
theorem keeps_isSome (s : Supply) : s.Keeps fun _ r => r.isSome = true := ⟨fun _ h => h, fun _ _ => rfl⟩

theorem stmt_isCanonical (x : Stmt) (st : State) :
    Ends (stmt x) st (fun y _ => y.IsCanonical) fun _ => True := by
  rw [stmt, ends_map]
  refine (hoistStmt_clean (W := fun _ _ => True) (keeps_isSome st.supply)
    ⟨fun _ h => h, fun _ _ => trivial⟩ x (fun _ _ h => h) (fun _ _ => trivial) (.refl _)).imp ?_
  exact fun ys st' h => isCanonical_ofList h.atomic

theorem expr_isCanonical (e : Expr) (st : State) :
    Ends (expr e) st (fun v _ => v.IsCanonical) fun _ => True := by
  rw [expr, ends_map]
  refine (hoistExpr_clean (W := fun _ _ => True) (keeps_isSome st.supply)
    ⟨fun _ h => h, fun _ _ => trivial⟩ e true (fun _ _ h => h) (fun _ _ => trivial) (.refl _)).imp ?_
  rintro ⟨pre, value⟩ st' h
  unfold Hoisted.toExpr
  split
  · have hvalue := h.value
    cases value with
    | eseq => cases hvalue
    | missing | int | addr | temp | bin | mem | call => exact hvalue
  · rename_i hne
    refine ⟨isCanonical_ofList h.pre.atomic, ofList_ne_nil h.pre.atomic fun hnil => ?_, h.value⟩
    exact hne (isEmpty_iff.mpr hnil)

/-- **Canonical forms are normal.** A statement that has a canonical form becomes one atomic statement,
or a sequence of none or at least two of them. An expression that has one becomes a reduced expression
or one call of such, perhaps behind a canonical statement. -/
theorem forms_normal :
    (∀ (x y : Stmt) (st st' : State), stmt x st = .ok y st' → y.IsCanonical) ∧
      ∀ (e v : Expr) (st st' : State), expr e st = .ok v st' → v.IsCanonical :=
  ⟨fun x _ st _ h => (stmt_isCanonical x st).of_ok h, fun e _ st _ h => (expr_isCanonical e st).of_ok h⟩

/-- A call is stored at a fixed address. Behind it, a statement inside of a destination sets a register,
which is then divided by zero, and nothing more is done. -/
def storing : Stmt :=
  .seq [.move (.mem (.addr (some ⟨0, 0, "out"⟩)))
      (.call (.addr (some ⟨0, 1, "next"⟩)) [.bin .add (.int 2) (.int 3) 0] .missing),
    .move (.eseq (.move (.temp (some ⟨0, 0, "x"⟩)) (.int 1)) (.temp (some ⟨0, 0, "x"⟩)))
      (.bin .div (.temp (some ⟨0, 0, "x"⟩)) (.int 0) 7),
    .eval (.int 4), .seq []]

/-- The call stays where it is, its argument is computed, and the division is kept. -/
def storingForm : Stmt :=
  .seq [.move (.mem (.addr (some ⟨0, 0, "out"⟩)))
      (.call (.addr (some ⟨0, 1, "next"⟩)) [.int 5] .missing),
    .move (.temp (some ⟨0, 0, "x"⟩)) (.int 1),
    .move (.temp (some ⟨0, 0, "x"⟩)) (.bin .div (.temp (some ⟨0, 0, "x"⟩)) (.int 0) 7)]

/-- A word in memory is added to what a call returns. -/
def adding : Expr :=
  .bin .add (.mem (.temp (some ⟨0, 0, "x"⟩))) (.call (.addr (some ⟨0, 1, "next"⟩)) [] .missing) 0

/-- The call goes through a register, and the word is saved before it. -/
def addingForm : Expr :=
  .eseq (.seq [.move (.temp (some ⟨0, 2, ""⟩)) (.mem (.temp (some ⟨0, 0, "x"⟩))),
      .move (.temp (some ⟨0, 1, ""⟩)) (.call (.addr (some ⟨0, 1, "next"⟩)) [] .missing)])
    (.bin .add (.temp (some ⟨0, 2, ""⟩)) (.temp (some ⟨0, 1, ""⟩)) 0)

theorem stmt_storing : stmt storing { supply := { labels := 2, regs := 1 } } =
    .ok storingForm { supply := { labels := 2, regs := 1 }, warnings := [⟨7, "division by zero"⟩] } :=
  rfl

theorem expr_adding : expr adding { supply := { labels := 2, regs := 1 } } =
    .ok addingForm { supply := { labels := 2, regs := 3 } } := rfl

theorem storing_normal : storingForm.IsCanonical ∧ addingForm.IsCanonical :=
  ⟨forms_normal.1 _ _ _ _ stmt_storing, forms_normal.2 _ _ _ _ expr_adding⟩

/-- **Canonicalizing is idempotent.** The canonical form of a statement or of an expression is its own
canonical form, wherever it is asked for, and neither registers nor labels are handed out for it. -/
theorem forms_idempotent :
    (∀ (x y : Stmt) (st st' : State), stmt x st = .ok y st' → ∀ st₁ : State, ∃ ws,
      stmt y st₁ = .ok y { st₁ with warnings := ws }) ∧
    ∀ (e v : Expr) (st st' : State), expr e st = .ok v st' → ∀ st₁ : State, ∃ ws,
      expr v st₁ = .ok v { st₁ with warnings := ws } := by
  refine ⟨fun x y st st' h st₁ => ?_, fun e v st st' h st₁ => ?_⟩
  · obtain ⟨_, ⟨supply, ws⟩, hstmt, rfl, rfl⟩ :=
      (stmt_of_isCanonical ((stmt_isCanonical x st).of_ok h) st₁).returns
    exact ⟨ws, hstmt⟩
  · obtain ⟨_, ⟨supply, ws⟩, hexpr, rfl, rfl⟩ :=
      (expr_of_isCanonical ((expr_isCanonical e st).of_ok h) st₁).returns
    exact ⟨ws, hexpr⟩

theorem storing_idempotent :
    (∃ ws, stmt storingForm {} = .ok storingForm { warnings := ws }) ∧
      ∃ ws, expr addingForm {} = .ok addingForm { warnings := ws } :=
  ⟨forms_idempotent.1 _ _ _ _ stmt_storing {}, forms_idempotent.2 _ _ _ _ expr_adding {}⟩

end Canonical

end Codegen
