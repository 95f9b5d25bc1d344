import Codegen.Proofs.Canonical.Straight
import Codegen.Proofs.Tree.Shape
import Mathlib.Data.List.Basic

/-!
# The shape of canonical forms

What the canonical form of a well-formed tree is made of: statements that can be selected, over the
registers of the tree and fresh ones, which place the labels of the tree in their order and jump only
to those that the tree names (`hoistStmt_forms`).
-/

namespace Codegen

open List

variable {P : Option Reg → Prop} {L : Option Label → Prop}

theorem Stmt.placesAll_eq (xs : List Stmt) : Stmt.placesAll xs = xs.flatMap Stmt.places := by
  induction xs with
  | nil => rfl
  | cons x xs ih => rw [Stmt.placesAll, ih, flatMap_cons]

theorem Stmt.goalsAll_eq (xs : List Stmt) : Stmt.goalsAll xs = xs.flatMap Stmt.goals := by
  induction xs with
  | nil => rfl
  | cons x xs ih => rw [Stmt.goalsAll, ih, flatMap_cons]

namespace Expr

open Semantics

theorem placesAll_eq (es : List Expr) : placesAll es = es.flatMap places := by
  induction es with
  | nil => rfl
  | cons e es ih => rw [placesAll, ih, flatMap_cons]

theorem goalsAll_eq (es : List Expr) : goalsAll es = es.flatMap goals := by
  induction es with
  | nil => rfl
  | cons e es ih => rw [goalsAll, ih, flatMap_cons]

theorem placesAll_operands (f : Expr) (args : List Expr) (link : Expr) :
    placesAll (f :: (args ++ linkOperands link)) = (call f args link).places := by
  rw [placesAll_eq, flatMap_cons, flatMap_append, places, placesAll_eq, append_assoc]
  cases link <;> simp [linkOperands, isPresent, places]

theorem goalsAll_operands (f : Expr) (args : List Expr) (link : Expr) :
    goalsAll (f :: (args ++ linkOperands link)) = (call f args link).goals := by
  rw [goalsAll_eq, flatMap_cons, flatMap_append, goals, goalsAll_eq, append_assoc]
  cases link <;> simp [linkOperands, isPresent, goals]

theorem allWellFormed_iff {es : List Expr} :
    AllWellFormed P L es ↔ ∀ e ∈ es, e.WellFormed P L := by
  induction es with
  | nil => simp [AllWellFormed]
  | cons e es ih => simp [AllWellFormed, ih]

end Expr

namespace Canonical

open Pass Semantics

variable {Q : Supply → Option Reg → Prop} {s c c₁ c' : Supply} {ps ps' gs gs' : List (Option Label)}
  {xs ys : List Stmt} {hs hs' : List Hoisted} {st : State}

/-! ### What canonical forms are made of -/

/-- Statements that can be selected, which place the given labels and jump only to some. -/
structure Forms (Q : Supply → Option Reg → Prop) (L : Option Label → Prop) (c c' : Supply)
    (ps gs : List (Option Label)) (ys : List Stmt) : Prop where
  advances : c.Advances c'
  selectable : ∀ y ∈ ys, y.Selectable (Q c') L
  places : Stmt.placesAll ys = ps
  goals : Stmt.goalsAll ys ⊆ gs

/-- Hoisted values that can be selected, as can the statements in front of them. -/
structure Yields (Q : Supply → Option Reg → Prop) (L : Option Label → Prop) (c c' : Supply)
    (ps gs : List (Option Label)) (hs : List Hoisted) : Prop where
  forms : Forms Q L c c' ps gs (hs.flatMap (·.pre))
  values : ∀ h ∈ hs, h.value.Selectable (Q c') L

namespace Forms

theorem nil (c : Supply) : Forms Q L c c [] [] [] :=
  ⟨.refl c, nofun, rfl, List.Subset.refl _⟩

theorem later (hQ : s.Keeps Q) (h : Forms Q L c c₁ ps gs ys) (hc : c₁.Advances c') :
    Forms Q L c c' ps gs ys where
  advances := h.advances.trans hc
  selectable y hy := (h.selectable y hy).mono (fun _ => hQ.mono hc.grows) fun _ => id
  places := h.places
  goals := h.goals

theorem append (hQ : s.Keeps Q) (h : Forms Q L c c₁ ps gs xs) (h' : Forms Q L c₁ c' ps' gs' ys) :
    Forms Q L c c' (ps ++ ps') (gs ++ gs') (xs ++ ys) where
  advances := h.advances.trans h'.advances
  selectable := forall_mem_append.mpr ⟨(h.later hQ h'.advances).selectable, h'.selectable⟩
  places := by rw [Stmt.placesAll_append, h.places, h'.places]
  goals := by
    rw [Stmt.goalsAll_append]
    exact append_subset.mpr ⟨fun l hl => mem_append_left _ (h.goals hl),
      fun l hl => mem_append_right _ (h'.goals hl)⟩

theorem concat {y : Stmt} {g : List (Option Label)} (h : Forms Q L c c' ps gs xs)
    (hy : y.Selectable (Q c') L) (hp : y.places = []) (hg : y.goals ⊆ g) :
    Forms Q L c c' ps (gs ++ g) (xs ++ [y]) where
  advances := h.advances
  selectable := forall_mem_append.mpr ⟨h.selectable, forall_mem_singleton.mpr hy⟩
  places := by
    rw [Stmt.placesAll_append, h.places, Stmt.placesAll, Stmt.placesAll, append_nil, hp,
      append_nil]
  goals := by
    rw [Stmt.goalsAll_append, Stmt.goalsAll, Stmt.goalsAll, append_nil]
    exact append_subset.mpr ⟨fun l hl => mem_append_left _ (h.goals hl),
      fun l hl => mem_append_right _ (hg hl)⟩

theorem concat_plain {y : Stmt} (h : Forms Q L c c' ps gs xs) (hy : y.Selectable (Q c') L)
    (hp : y.places = []) (hg : y.goals = []) : Forms Q L c c' ps gs (xs ++ [y]) := by
  have h := h.concat (g := []) hy hp (hg ▸ List.Subset.refl _)
  rwa [append_nil] at h

end Forms

namespace Yields

theorem single {h : Hoisted} (hpre : Forms Q L c c' ps gs h.pre) (hval : h.value.Selectable (Q c') L) :
    Yields Q L c c' ps gs [h] :=
  ⟨by rwa [flatMap_singleton], forall_mem_singleton.mpr hval⟩

theorem pre {h : Hoisted} (hh : Yields Q L c c' ps gs [h]) : Forms Q L c c' ps gs h.pre := by
  have := hh.forms
  rwa [flatMap_singleton] at this

theorem value {h : Hoisted} (hh : Yields Q L c c' ps gs [h]) : h.value.Selectable (Q c') L :=
  hh.values h mem_cons_self

theorem append (hQ : s.Keeps Q) (h : Yields Q L c c₁ ps gs hs) (h' : Yields Q L c₁ c' ps' gs' hs') :
    Yields Q L c c' (ps ++ ps') (gs ++ gs') (hs ++ hs') where
  forms := by
    rw [flatMap_append]
    exact h.forms.append hQ h'.forms
  values := forall_mem_append.mpr ⟨fun x hx =>
    (h.values x hx).mono (fun _ => hQ.mono h'.forms.advances.grows) fun _ => id, h'.values⟩

end Yields

/-- A move between expressions that can be selected behind. -/
theorem Forms.move {d e : Expr} (h : Forms Q L c c' ps gs xs) (hd : d.Selectable (Q c') L)
    (he : e.Selectable (Q c') L) (hmove : (Stmt.move d e).Selectable (Q c') L) :
    Forms Q L c c' ps gs (xs ++ [.move d e]) :=
  h.concat_plain hmove (by rw [Stmt.places, hd.places_eq, he.places_eq]; rfl)
    (by rw [Stmt.goals, hd.goals_eq, he.goals_eq]; rfl)

/-! ### Hoisting operands -/

/-- What is kept of values and statements as the supply grows, and holds of the moves that save such
values in fresh registers. -/
structure Savable (s : Supply) (V : Supply → Expr → Prop) (R : Supply → Stmt → Prop) : Prop where
  value : ∀ {c c' e}, c.Grows c' → V c e → V c' e
  stmt : ∀ {c c' y}, c.Grows c' → R c y → R c' y
  fresh : ∀ {c}, s.Grows c → V c.freshReg.2 (.temp (some c.freshReg.1))
  save : ∀ {c e}, s.Grows c → V c.freshReg.2 e →
    R c.freshReg.2 (.move (.temp (some c.freshReg.1)) e)

section Savable

variable {V : Supply → Expr → Prop} {R : Supply → Stmt → Prop} (hV : Savable s V R)
  {os : List Operand} {pre : List Stmt}
include hV

theorem saveClashing_savable (eff : Effects) (hs : s.Grows c) (hos : ∀ o ∈ os, V c o.value) :
    c.Advances (saveClashing eff os c).2.2 ∧
      (∀ y ∈ (saveClashing eff os c).1, R (saveClashing eff os c).2.2 y) ∧
      ∀ o ∈ (saveClashing eff os c).2.1, V (saveClashing eff os c).2.2 o.value := by
  induction os generalizing c with
  | nil => exact ⟨.refl c, nofun, nofun⟩
  | cons o os ih =>
    rw [forall_mem_cons] at hos
    rw [saveClashing]
    split
    · obtain ⟨hadv, hmoves, hvals⟩ := ih hs hos.2
      exact ⟨hadv, hmoves, forall_mem_cons.mpr ⟨hV.value hadv.grows hos.1, hvals⟩⟩
    · have hgrows := c.grows_freshReg
      obtain ⟨hadv, hmoves, hvals⟩ := ih (hs.trans hgrows) fun o ho => hV.value hgrows (hos.2 o ho)
      refine ⟨c.advances_freshReg.trans hadv, forall_mem_cons.mpr ⟨?_, hmoves⟩,
        forall_mem_cons.mpr ⟨?_, hvals⟩⟩
      · exact hV.stmt hadv.grows (hV.save hs (hV.value hgrows hos.1))
      · exact hV.value hadv.grows (hV.fresh hs)

theorem hoistAfter_savable (hs' : s.Grows c) (hpre : ∀ y ∈ pre, R c y) (hos : ∀ o ∈ os, V c o.value)
    (hops : ∀ h ∈ hs, (∀ y ∈ h.pre, R c y) ∧ V c h.value) :
    c.Advances (hoistAfter pre os hs c).2.2 ∧
      (∀ y ∈ (hoistAfter pre os hs c).1, R (hoistAfter pre os hs c).2.2 y) ∧
      ∀ o ∈ (hoistAfter pre os hs c).2.1, V (hoistAfter pre os hs c).2.2 o.value := by
  induction hs generalizing pre os c with
  | nil => exact ⟨.refl c, hpre, hos⟩
  | cons h hs ih =>
    rw [forall_mem_cons] at hops
    rw [hoistAfter]
    split
    · exact ih hs' hpre (forall_mem_append.mpr ⟨hos, forall_mem_singleton.mpr hops.1.2⟩) hops.2
    · obtain ⟨hadv, hmoves, hvals⟩ := saveClashing_savable hV (Stmt.effectsOf h.pre) hs' hos
      have hlater {x : Hoisted} (hx : (∀ y ∈ x.pre, R c y) ∧ V c x.value) :=
        And.intro (fun y hy => hV.stmt hadv.grows (hx.1 y hy)) (hV.value hadv.grows hx.2)
      have hpre' := forall_mem_append.mpr ⟨forall_mem_append.mpr
        ⟨fun y hy => hV.stmt hadv.grows (hpre y hy), hmoves⟩, (hlater hops.1).1⟩
      have hdone : ∀ o ∈ (saveClashing (Stmt.effectsOf h.pre) os c).2.1 ++ [{ value := h.value }],
          V (saveClashing (Stmt.effectsOf h.pre) os c).2.2 o.value :=
        forall_mem_append.mpr ⟨hvals, forall_mem_singleton.mpr (hlater hops.1).2⟩
      obtain ⟨hadv', hall⟩ := ih (hs'.trans hadv.grows) hpre' hdone fun x hx => hlater (hops.2 x hx)
      exact ⟨hadv.trans hadv', hall⟩

/-- What the moves have nothing of is found in the statements of the operands, in their order. -/
theorem hoistAfter_flatMap {α : Type} {F : Stmt → List α} (hF : ∀ {c y}, R c y → F y = [])
    (pre : List Stmt) (hs' : s.Grows c) (hos : ∀ o ∈ os, V c o.value) (hops : ∀ h ∈ hs, V c h.value) :
    (hoistAfter pre os hs c).1.flatMap F = pre.flatMap F ++ (hs.flatMap (·.pre)).flatMap F := by
  induction hs generalizing pre os c with
  | nil => exact (append_nil _).symm
  | cons h hs ih =>
    rw [forall_mem_cons] at hops
    rw [hoistAfter, flatMap_cons]
    split
    · rename_i hempty
      rw [isEmpty_iff.mp hempty, nil_append]
      exact ih _ hs' (forall_mem_append.mpr ⟨hos, forall_mem_singleton.mpr hops.1⟩) hops.2
    · obtain ⟨hadv, hmoves, hvals⟩ := saveClashing_savable hV (Stmt.effectsOf h.pre) hs' hos
      have hnone := flatMap_eq_nil_iff.mpr fun y hy => hF (hmoves y hy)
      rw [ih _ (hs'.trans hadv.grows) (forall_mem_append.mpr
        ⟨hvals, forall_mem_singleton.mpr (hV.value hadv.grows hops.1)⟩)
        fun x hx => hV.value hadv.grows (hops.2 x hx), flatMap_append, flatMap_append, hnone,
        append_nil, append_assoc, flatMap_append]

theorem ends_pull_savable (hs' : s.Grows st.supply)
    (hops : ∀ h ∈ hs, (∀ y ∈ h.pre, R st.supply y) ∧ V st.supply h.value) :
    Ends (pull hs) st (fun p st' => st.supply.Advances st'.supply ∧ (∀ y ∈ p.1, R st'.supply y) ∧
      p.2.length = hs.length ∧ ∀ e ∈ p.2, V st'.supply e) fun _ => True := by
  obtain ⟨hadv, hpre, hvals⟩ := hoistAfter_savable hV hs' (forall_mem_nil _) (forall_mem_nil _) hops
  exact ends_step.mpr ⟨hadv, hpre, length_hoistAll hs _, forall_mem_map.mpr hvals⟩

end Savable

theorem savable_selectable (hQ : s.Keeps Q) :
    Savable s (fun c e => e.Selectable (Q c) L) fun c y => y.Selectable (Q c) L where
  value hc h := h.mono (fun _ => hQ.mono hc) fun _ => id
  stmt hc h := h.mono (fun _ => hQ.mono hc) fun _ => id
  fresh hs := hQ.fresh _ hs
  save hs h := ⟨hQ.fresh _ hs, h⟩

theorem savable_plain (s : Supply) : Savable s (fun _ e => e.places = [] ∧ e.goals = [])
    fun _ y => y.places = [] ∧ y.goals = [] where
  value _ h := h
  stmt _ h := h
  fresh _ := ⟨rfl, rfl⟩
  save _ h := h

section Operands

variable (hQ : s.Keeps Q)
include hQ

theorem Yields.ends_pull (h : Yields Q L c st.supply ps gs hs) (hs' : s.Grows c) :
    Ends (pull hs) st (fun p st' => Forms Q L c st'.supply ps gs p.1 ∧ p.2.length = hs.length ∧
      ∀ e ∈ p.2, e.Selectable (Q st'.supply) L) fun _ => True := by
  have hops : ∀ x ∈ hs, (∀ y ∈ x.pre, y.Selectable (Q st.supply) L) ∧
      x.value.Selectable (Q st.supply) L := fun x hx =>
    ⟨fun y hy => h.forms.selectable y (mem_flatMap.mpr ⟨x, hx, hy⟩), h.values x hx⟩
  have hplain : ∀ x ∈ hs, x.value.places = [] ∧ x.value.goals = [] := fun x hx =>
    ⟨(h.values x hx).places_eq, (h.values x hx).goals_eq⟩
  have hflat {F : Stmt → List (Option Label)}
      (hF : ∀ {y : Stmt}, y.places = [] ∧ y.goals = [] → F y = []) :=
    hoistAfter_flatMap (savable_plain _) hF [] (.refl st.supply) (forall_mem_nil _) hplain
  have hpull := ends_pull_savable (savable_selectable hQ) (hs'.trans h.forms.advances.grows) hops
  rw [pull, ends_step] at hpull ⊢
  obtain ⟨hadv, hpre, hvals⟩ := hpull
  refine ⟨⟨h.forms.advances.trans hadv, hpre, ?_, fun l hl => h.forms.goals ?_⟩, hvals⟩
  · rw [← h.forms.places, Stmt.placesAll_eq, Stmt.placesAll_eq]
    exact hflat And.left
  · rw [Stmt.goalsAll_eq] at hl ⊢
    exact (congrArg (l ∈ ·) (hflat And.right)).mp hl

theorem ends_pullPair_forms {a b : Hoisted} (ha : Yields Q L c c₁ ps gs [a])
    (hb : Yields Q L c₁ st.supply ps' gs' [b]) (hs' : s.Grows c) :
    Ends (pullPair a b) st (fun p st' => Forms Q L c st'.supply (ps ++ ps') (gs ++ gs') p.1 ∧
      p.2.1.Selectable (Q st'.supply) L ∧ p.2.2.Selectable (Q st'.supply) L) fun _ => True := by
  rw [pullPair]
  refine ((ha.append hQ hb).ends_pull hQ hs').bind ?_
  rintro ⟨pre, values⟩ st₁ ⟨hforms, hlen, hvals⟩
  obtain ⟨x, y, rfl⟩ := length_eq_two.mp hlen
  exact ends_pure.mpr ⟨hforms, hvals x mem_cons_self, hvals y (by simp)⟩

end Operands

/-! ### Forms of expressions -/

theorem selectable_fold {op : Op} {l r : Expr} {pos : Int} (hop : op.isKnown = true)
    (hl : l.Selectable P L) (hr : r.Selectable P L) : (Expr.fold op l r pos).Selectable P L := by
  rcases fold_cases op l r pos with h | ⟨-, h⟩ | ⟨e, hdrop, h⟩ | ⟨x, y, v, -, -, -, h⟩ <;> rw [h]
  · exact ⟨hop, hl, hr⟩
  · exact ⟨hop, hr, hl⟩
  · rcases dropNeutral_cases hdrop with ⟨rfl, -⟩ | ⟨rfl, -⟩
    · exact hr
    · exact hl
  · trivial

/-- A callee, arguments and a link make a call; the link comes last, if there is one. -/
theorem exists_callOf {values : List Expr} {args : Nat} {link : Expr}
    (hlen : values.length = args + 1 + (linkOperands link).length) :
    ∃ f as ls, values = f :: (as ++ ls) ∧ ls.length ≤ 1 ∧
      callOf values args link.isPresent = .call f as (ls.headD .missing) := by
  match values, hlen with
  | [], hlen =>
    rw [length_nil] at hlen
    omega
  | f :: rest, hlen =>
    have hlink : (linkOperands link).length = if link.isPresent then 1 else 0 := by
      rw [linkOperands]
      split <;> rfl
    rw [length_cons] at hlen
    have hdrop : (rest.drop args).length = if link.isPresent then 1 else 0 := by
      rw [length_drop, ← hlink]
      omega
    refine ⟨f, rest.take args, rest.drop args, by rw [take_append_drop], ?_, ?_⟩
    · rw [hdrop]
      split <;> decide
    · rw [← callOf_append f (rest.take args) (rest.drop args) args link.isPresent _ hdrop,
        take_append_drop]
      rw [length_take]
      omega

/-- The values of a callee, arguments and a link make a call. -/
theorem selectable_callOf {values : List Expr} {args : Nat} {link : Expr}
    (hlen : values.length = args + 1 + (linkOperands link).length)
    (hvals : ∀ e ∈ values, e.Selectable P L) :
    (callOf values args link.isPresent).Selectable P L := by
  obtain ⟨f, as, ls, rfl, -, hcall⟩ := exists_callOf hlen
  rw [forall_mem_cons, forall_mem_append] at hvals
  rw [hcall]
  refine ⟨hvals.1, Expr.allSelectable_iff.mpr hvals.2.1, fun hp => ?_⟩
  cases ls with
  | nil => cases hp
  | cons l ls => exact hvals.2.2 l mem_cons_self

section Trees

variable (hQ : s.Keeps Q)
include hQ

theorem Yields.ends_call {args : Nat} {link : Expr} (whole : Bool)
    (h : Yields Q L c st.supply ps gs hs) (hlen : hs.length = args + 1 + (linkOperands link).length)
    (hs' : s.Grows c) :
    Ends (callFrom hs args link.isPresent whole) st
      (fun x st' => Yields Q L c st'.supply ps gs [x]) fun _ => True := by
  rw [callFrom]
  refine (h.ends_pull hQ hs').bind ?_
  rintro ⟨pre, values⟩ st₁ ⟨hforms, hlen', hvals⟩
  have hcall := selectable_callOf (hlen'.trans hlen) hvals
  cases whole with
  | true => exact ends_pure.mpr (.single hforms hcall)
  | false =>
    dsimp only
    rw [if_neg Bool.false_ne_true, ends_bind]
    refine ends_step.mpr (ends_pure.mpr ?_)
    have hgrows := st₁.supply.advances_freshReg
    have hfresh : (Expr.temp (some st₁.supply.freshReg.1)).Selectable (Q st₁.supply.freshReg.2) L :=
      hQ.fresh _ (hs'.trans hforms.advances.grows)
    have hcall' := hcall.mono (fun _ => hQ.mono hgrows.grows) fun _ => id
    exact .single ((hforms.later hQ hgrows).move hfresh hcall' ⟨hfresh, hcall'⟩) hfresh

/-- A conditional jump on hoisted operands, which may have been decided. -/
theorem branchStmts_forms {cond : Cond} {l r : Hoisted} {t f : Option Label} (hcond : cond.isKnown = true)
    (hl : Yields Q L c c₁ ps gs [l]) (hr : Yields Q L c₁ st.supply ps' gs' [r]) (ht : L t) (hf : L f)
    (hs' : s.Grows c) :
    Ends (branchStmts cond l r t f) st
      (fun ys st' => Forms Q L c st'.supply (ps ++ ps') (gs ++ gs' ++ [t, f]) ys) fun _ => True := by
  rw [branchStmts]
  refine (ends_pullPair_forms hQ hl hr hs').bind ?_
  rintro ⟨pre, a, b⟩ st₁ ⟨hforms, ha, hb⟩
  have hjump (l : Option Label) (hl : L l) (hmem : l ∈ [t, f]) :
      Forms Q L c st₁.supply (ps ++ ps') (gs ++ gs' ++ [t, f]) (pre ++ [.goto l]) :=
    hforms.concat ⟨hl, forall_mem_singleton.mpr hl⟩ rfl
      (cons_subset.mpr ⟨hmem, nil_subset _⟩)
  have hbranch : Forms Q L c st₁.supply (ps ++ ps') (gs ++ gs' ++ [t, f])
      (pre ++ [.cjump cond a b t f]) :=
    hforms.concat ⟨hcond, ha, hb, ht, hf⟩ (by rw [Stmt.places, ha.places_eq, hb.places_eq]; rfl)
      (by rw [Stmt.goals, ha.goals_eq, hb.goals_eq]; exact List.Subset.refl _)
  dsimp only
  split
  · rw [ends_bind]
    refine ends_orTrap (fun holds _ => ?_) fun _ => trivial
    refine ends_pure.mpr ?_
    cases holds with
    | true => exact hjump t ht (by simp)
    | false => exact hjump f hf (by simp)
  · exact ends_pure.mpr hbranch

omit hQ in
theorem Yields.evalStmts {h : Hoisted} (hh : Yields Q L c c' ps gs [h]) :
    Forms Q L c c' ps gs (evalStmts h) := by
  have hval := hh.value
  have hpre := hh.pre
  unfold Canonical.evalStmts
  split
  · exact hpre
  · exact hpre.concat_plain hval hval.places_eq hval.goals_eq

omit hQ in
theorem Yields.jump {h : Hoisted} {targets : List (Option Label)} (hh : Yields Q L c c' ps gs [h])
    (ht : ∀ l ∈ targets, L l) :
    Forms Q L c c' ps (gs ++ targets) (h.pre ++ [.jump h.value targets]) := by
  have hval := hh.value
  exact hh.pre.concat ⟨hval, ht⟩ hval.places_eq
    (by rw [Stmt.goals, hval.goals_eq]; exact List.Subset.refl _)

/-! ### The whole of a tree -/

theorem Yields.of_hoistedAll {es : List Expr} {st st' : State}
    (h : HoistedAll (fun e _ st st' h => Yields Q L st.supply st'.supply e.places e.goals [h])
      es st st' hs) :
    Yields Q L st.supply st'.supply (Expr.placesAll es) (Expr.goalsAll es) hs := by
  induction h with
  | nil => exact ⟨.nil _, nofun⟩
  | cons he _ ih => exact he.append hQ ih

theorem hoisting_forms : Hoisting
    (fun e _ st st' h => e.WellFormed (Q s) L ∧ s.Grows st.supply →
      Yields Q L st.supply st'.supply e.places e.goals [h])
    (fun x st st' ys => x.WellFormed (Q s) L ∧ s.Grows st.supply →
      Forms Q L st.supply st'.supply x.places x.goals ys) where
  leaf {e _ _} hleaf := fun ⟨he, hs⟩ => by
    cases e with
    | int => exact .single (.nil _) trivial
    | addr => exact .single (.nil _) he
    | temp => exact .single (.nil _) (hQ.mono hs he)
    | missing | bin | mem | call | eseq => cases hleaf
  bin h1 h2 := ends_of_imp fun ⟨he, hs⟩ => by
    have h1 := h1 ⟨he.2.1, hs⟩
    have h2 := h2 ⟨he.2.2, hs.trans h1.forms.advances.grows⟩
    refine (ends_pullPair_forms hQ h1 h2 hs).bind ?_
    rintro ⟨pre, a, b⟩ st₃ ⟨hforms, ha, hb⟩
    refine (ends_warnDivision _ b _).bind fun _ st₄ h4 => ?_
    rw [← h4] at hforms ha hb
    exact ends_pure.mpr (.single hforms (selectable_fold he.1 ha hb))
  mem h1 h := .single (h1 h).pre (h1 h).value
  call hall := ends_of_imp fun ⟨he, hs⟩ => by
    have hlen := hall.length
    have hall := Yields.of_hoistedAll hQ (hall.of_imp
      (fun hst h => hst.trans h.forms.advances.grows)
      (forall_mem_operands he.1 (Expr.allWellFormed_iff.mp he.2.1) fun _ => he.2.2) hs)
    rw [Expr.placesAll_operands, Expr.goalsAll_operands] at hall
    exact hall.ends_call hQ _ (by simpa [Nat.add_right_comm] using hlen) hs
  eseq h1 h2 := fun ⟨he, hs⟩ => by
    have h1 := h1 ⟨he.1, hs⟩
    have h2 := h2 ⟨he.2, hs.trans h1.advances.grows⟩
    exact .single (h1.append hQ h2.pre) h2.value
  nil _ := .nil _
  cons h1 h2 := fun ⟨hx, hs⟩ =>
    have h1 := h1 ⟨hx.1, hs⟩
    h1.append hQ (h2 ⟨hx.2, hs.trans h1.advances.grows⟩)
  place h := ⟨.refl _, forall_mem_singleton.mpr ⟨rfl, h.1⟩, rfl, List.Subset.refl _⟩
  eval h1 h := (h1 h).evalStmts
  jump _ h1 h := (h1 ⟨h.1.1, h.2⟩).jump h.1.2
  cjump _ _ h1 h2 := ends_of_imp fun ⟨hx, hs⟩ => by
    have h1 := h1 ⟨hx.2.1, hs⟩
    have h2 := h2 ⟨hx.2.2.1, hs.trans h1.forms.advances.grows⟩
    exact branchStmts_forms hQ hx.1 h1 h2 hx.2.2.2.1 hx.2.2.2.2 hs
  toReg h1 := fun ⟨hx, hs⟩ => by
    have h1 := h1 ⟨hx.2, hs⟩
    have hr := hQ.mono (hs.trans h1.forms.advances.grows) hx.1
    have hval := h1.value
    exact h1.pre.move (d := .temp _) hr hval ⟨hr, hval⟩
  toFixed h1 := fun ⟨hx, hs⟩ => by
    have h1 := h1 ⟨hx.2, hs⟩
    have hval := h1.value
    exact h1.pre.move (d := .mem (.addr _)) hx.1 hval ⟨hx.1, hval⟩
  toMem _ h1 h2 := ends_of_imp fun ⟨hx, hs⟩ => by
    have h1 := h1 ⟨hx.1, hs⟩
    have h2 := h2 ⟨hx.2, hs.trans h1.forms.advances.grows⟩
    refine (ends_pullPair_forms hQ h1 h2 hs).bind ?_
    rintro ⟨pre, a', e'⟩ st₃ ⟨hforms, ha', he'⟩
    exact ends_pure.mpr (hforms.move (d := .mem a') ha' he' ⟨ha', he'⟩)
  behind h1 h2 := fun ⟨hx, hs⟩ => by
    have h1 := h1 ⟨hx.1.1, hs⟩
    have h2 := h2 ⟨⟨hx.1.2, hx.2⟩, hs.trans h1.advances.grows⟩
    rw [Stmt.places, Stmt.goals, Expr.places, Expr.goals, append_assoc, append_assoc]
    exact h1.append hQ h2
  nothing hx _ := by
    obtain rfl | ⟨e, rfl, hconst⟩ := hx
    · exact .nil _
    · cases e with
      | int | addr => exact .nil _
      | missing | temp | bin | mem | call | eseq => cases hconst

theorem hoistStmt_forms {st : State} (x : Stmt) (hx : x.WellFormed (Q s) L) (hs : s.Grows st.supply) :
    Ends (hoistStmt x) st
      (fun ys st' => Forms Q L st.supply st'.supply x.places x.goals ys) fun _ => True :=
  ((hoisting_forms hQ).stmt x st).imp fun _ _ h => h ⟨hx, hs⟩

end Trees

end Canonical

end Codegen
