import Codegen.Proofs.Canonical.Straight
import Mathlib.Data.List.Forall2

/-!
# Canonical forms preserve meaning

Jumps and labels stand in sequences only. From its start and from every label that it places, a
statement and its canonical form run to the same outcome, through the same calls, and agree on the
memory and on the registers that were there before (`stmt_preserves_meaning`).
-/

namespace Codegen.Semantics

open Canonical Pass List

variable {Mem : Type*} {I : Interp Mem} {s c c₁ c' : Supply} {st : State}

/-- The outcome is the same, or a conditional jump was decided and became a jump to the address of
its label. -/
inductive Leads (I : Interp Mem) : Outcome → Outcome → Prop
  | same (o : Outcome) : Leads I o o
  | decided (l : Option Label) : Leads I (.label l) (.address (I.addr l))

theorem Leads.next_iff {o o' : Outcome} (h : Leads I o o') : o' = .next ↔ o = .next := by
  cases h with
  | same => rfl
  | decided => exact ⟨nofun, nofun⟩

/-- Two runs come to the same end, as far as memory, calls and the registers of `s` go. -/
structure SameEnd (I : Interp Mem) (s : Supply) (a b : Outcome × Store Mem) : Prop where
  outcome : Leads I a.1 b.1
  store : Same s.Knows a.2 b.2

/-- Runs of two lists of statements come to the same end. -/
def Corresponds (I : Interp Mem) (s : Supply) (xs ys : List Stmt) : Prop :=
  ∀ σ σ' : Store Mem, Same s.Knows σ σ' → SameEnd I s (execAll I xs σ) (execAll I ys σ')

theorem Corresponds.append {xs ys xs' ys' : List Stmt} (h : Corresponds I s xs ys)
    (h' : Corresponds I s xs' ys') : Corresponds I s (xs ++ xs') (ys ++ ys') := by
  intro σ σ' hσ
  have h1 := h σ σ' hσ
  by_cases hnext : (execAll I xs σ).1 = .next
  · rw [execAll_append_of_next hnext, execAll_append_of_next (h1.outcome.next_iff.mpr hnext)]
    exact h' _ _ h1.store
  · rw [execAll_append_of_ne hnext,
      execAll_append_of_ne fun h => hnext (h1.outcome.next_iff.mp h)]
    exact h1

/-- Two labels with what runs behind them. -/
def SameEntry (I : Interp Mem) (s : Supply) (p q : Option Label × List Stmt) : Prop :=
  p.1 = q.1 ∧ Corresponds I s p.2 q.2

/-- Statements and their canonical form run to the same end, from the start and from every label. -/
structure Lowers (I : Interp Mem) (s : Supply) (xs : List Stmt) (c c' : Supply) (ys : List Stmt) :
    Prop where
  grows : c.Grows c'
  flat : ∀ y ∈ ys, y.flatten = [y]
  run : Corresponds I s xs ys
  labels : List.Forall₂ (SameEntry I s) (entries xs) (entries ys)

namespace Lowers

variable {xs ys xs' ys' : List Stmt} {x : Stmt}

theorem nil (I : Interp Mem) (s c : Supply) : Lowers I s [] c c [] :=
  ⟨.refl c, forall_mem_nil _, fun _ _ h => ⟨.same _, h⟩, .nil⟩

theorem append (h : Lowers I s xs c c₁ ys) (h' : Lowers I s xs' c₁ c' ys') :
    Lowers I s (xs ++ xs') c c' (ys ++ ys') where
  grows := h.grows.trans h'.grows
  flat := forall_mem_append.mpr ⟨h.flat, h'.flat⟩
  run := h.run.append h'.run
  labels := by
    rw [entries_append, entries_append]
    refine rel_append ?_ h'.labels
    rw [forall₂_map_left_iff, forall₂_map_right_iff]
    exact h.labels.imp fun p q hpq => ⟨hpq.1, hpq.2.append h'.run⟩

theorem place (I : Interp Mem) (s c : Supply) (l : Option Label) :
    Lowers I s [.place l] c c [.place l] :=
  ⟨.refl c, forall_mem_singleton.mpr rfl, fun _ _ h => ⟨.same _, h⟩,
    .cons ⟨rfl, fun _ _ h => ⟨.same _, h⟩⟩ .nil⟩

theorem of_isStep (hgrows : c.Grows c') (hx : isStep x = true) (hy : ∀ y ∈ ys, isStep y = true)
    (hrun : ∀ σ σ' : Store Mem, Same s.Knows σ σ' → SameEnd I s (exec I x σ) (execAll I ys σ')) :
    Lowers I s [x] c c' ys := by
  have hnone : ∀ zs : List Stmt, (∀ z ∈ zs, isStep z = true) → entries zs = [] := fun zs hz => by
    rw [← append_nil zs, entries_append_of_isStep hz]
    rfl
  refine ⟨hgrows, fun y hmem => ?_, fun σ σ' hσ => ?_, ?_⟩
  · have hstep := hy y hmem
    cases y with
    | seq | place => cases hstep
    | missing | move | eval | jump | cjump => rfl
  · rw [execAll_singleton]
    exact hrun σ σ' hσ
  · rw [hnone [x] (forall_mem_singleton.mpr hx), hnone ys hy]
    exact .nil

theorem of_acts (h : Acts I s (fun σ => (exec I x σ).2) c c' ys) (hx : isStep x = true)
    (hnext : ∀ σ : Store Mem, (exec I x σ).1 = .next) : Lowers I s [x] c c' ys := by
  refine .of_isStep h.grows hx (fun y hy => isStep_of_isSimple (h.simple y hy)) fun σ σ' hσ => ?_
  refine ⟨?_, h.run σ σ' hσ⟩
  rw [hnext, execAll_fst_of_isSimple h.simple]
  exact .same _

/-- A transfer of control behind simple statements. -/
theorem of_transfer {pre : List Stmt} {z : Stmt} (hgrows : c.Grows c') (hx : isStep x = true)
    (hpre : ∀ y ∈ pre, isSimple y = true) (hz : isStep z = true)
    (hrun : ∀ σ σ' : Store Mem, Same s.Knows σ σ' →
      SameEnd I s (exec I x σ) (exec I z (execAll I pre σ').2)) :
    Lowers I s [x] c c' (pre ++ [z]) := by
  refine .of_isStep hgrows hx (forall_mem_append.mpr
    ⟨fun y hy => isStep_of_isSimple (hpre y hy), forall_mem_singleton.mpr hz⟩)
    fun σ σ' hσ => ?_
  rw [execAll_append_of_isSimple hpre, execAll_singleton]
  exact hrun σ σ' hσ

end Lowers

theorem Hoists.jump {d : Expr} {h : Hoisted} {targets : List (Option Label)}
    (hh : Hoists I s (eval I d) false c c' h) :
    Lowers I s [.jump d targets] c c' (h.pre ++ [.jump h.value targets]) := by
  refine .of_transfer hh.grows rfl hh.pre rfl fun σ σ' hσ => ?_
  obtain ⟨h1, h2⟩ := hh.run σ σ' hσ
  refine ⟨?_, h2⟩
  show Leads I (.address _) (.address _)
  rw [h1]
  exact .same _

/-- A conditional jump on pulled operands. -/
theorem Pulled.branch {cond : Cond} {l r a b : Expr} {t f : Option Label} {pre : List Stmt}
    (h : Pulled I s [l, r] c c' pre [a, b]) :
    Lowers I s [.cjump cond l r t f] c c' (pre ++ [.cjump cond a b t f]) := by
  have ha := h.pure_values a mem_cons_self
  have hb := h.pure_values b (mem_cons_of_mem _ mem_cons_self)
  refine .of_transfer h.grows rfl h.simple rfl fun σ σ' hσ => ?_
  obtain ⟨h1, h2, h3⟩ := h.pair hσ
  rw [exec, exec]
  rw [eval_snd_of_isPure ha, eval_snd_of_isPure hb, h1, h2]
  exact ⟨.same _, h3⟩

/-- A conditional jump between constants goes where the condition says. -/
theorem Pulled.decided {cond : Cond} {l r : Expr} {x y : Int64} {t f : Option Label}
    {pre : List Stmt} {holds : Bool} (h : Pulled I s [l, r] c c' pre [.int x, .int y])
    (hholds : cond.holds? x y = some holds) :
    Lowers I s [.cjump cond l r t f] c c' (pre ++ [.goto (if holds then t else f)]) := by
  refine .of_transfer h.grows rfl h.simple rfl fun σ σ' hσ => ?_
  obtain ⟨h1, h2, h3⟩ := h.pair hσ
  have h1' : x = (eval I l σ).1 := h1
  have h2' : y = (eval I r (eval I l σ).2).1 := h2
  have hcond : I.holds cond (eval I l σ).1 (eval I r (eval I l σ).2).1 = holds := by
    rw [← h1', ← h2', Interp.holds, hholds]
    rfl
  rw [exec, hcond]
  exact ⟨.decided _, h3⟩

theorem ends_branchStmts {cond : Cond} {l r : Expr} {hl hr : Hoisted} {t f : Option Label}
    (hs : s.Grows c) (hhl : Hoists I s (eval I l) false c c₁ hl)
    (hhr : Hoists I s (eval I r) false c₁ st.supply hr) :
    Ends (branchStmts cond hl hr t f) st
      (fun ys st' => Lowers I s [.cjump cond l r t f] c st'.supply ys) fun _ => True := by
  rw [branchStmts]
  refine (ends_pullPair hs hhl hhr).bind fun p st₁ h1 => ?_
  obtain ⟨pre, a, b⟩ := p
  dsimp only at h1 ⊢
  split
  · rw [ends_bind]
    refine ends_orTrap (fun holds hholds => ?_) fun _ => trivial
    exact ends_pure.mpr (h1.decided hholds)
  · exact ends_pure.mpr h1.branch

/-! ### Statements -/

mutual

theorem hoistStmt_lowers (I : Interp Mem) {st : State} (x : Stmt) (horderly : isOrderly x = true)
    (hknown : ∀ r ∈ regsIn x, s.Knows r) (hs : s.Grows st.supply) :
    Ends (hoistStmt x) st (fun ys st' => Lowers I s x.flatten st.supply st'.supply ys)
      fun _ => True := by
  cases x with
  | missing =>
    rw [hoistStmt]
    exact ends_fail.mpr trivial
  | seq list =>
    rw [hoistStmt]
    exact hoistList_lowers I 0 list horderly hknown hs
  | place l =>
    rw [hoistStmt]
    cases l with
    | none => exact ends_fail.mpr trivial
    | some l => exact ends_pure.mpr (.place I s _ (some l))
  | move d e =>
    exact (hoistStmt_acts I (.move d e) horderly hknown hs).imp
      fun ys st₁ h1 => .of_acts h1 rfl fun _ => rfl
  | eval e =>
    exact (hoistStmt_acts I (.eval e) horderly hknown hs).imp
      fun ys st₁ h1 => .of_acts h1 rfl fun _ => rfl
  | jump d targets =>
    rw [hoistStmt]
    split
    · exact ends_fail.mpr trivial
    · exact (hoistExpr_hoists I d false horderly hknown hs).bind
        fun h st₁ h1 => ends_pure.mpr h1.jump
  | cjump cond l r t f =>
    rw [isOrderly, Bool.and_eq_true] at horderly
    obtain ⟨hkl, hkr⟩ := forall_mem_append.mp hknown
    rw [hoistStmt]
    split
    · exact ends_fail.mpr trivial
    · refine (hoistExpr_hoists I l false horderly.1 hkl hs).bind fun hl st₁ h1 => ?_
      refine (hoistExpr_hoists I r false horderly.2 hkr (hs.trans h1.grows)).bind
        fun hr st₂ h2 => ?_
      exact ends_branchStmts hs h1 h2

theorem hoistList_lowers (I : Interp Mem) {st : State} (i : Nat) (list : List Stmt)
    (horderly : areOrderly list = true) (hknown : ∀ r ∈ regsInAll list, s.Knows r)
    (hs : s.Grows st.supply) :
    Ends (hoistList i list) st
      (fun ys st' => Lowers I s (Stmt.flattenAll list) st.supply st'.supply ys) fun _ => True := by
  cases list with
  | nil =>
    rw [hoistList]
    exact ends_pure.mpr (.nil I s _)
  | cons x xs =>
    rw [areOrderly, Bool.and_eq_true] at horderly
    obtain ⟨hkx, hkxs⟩ := forall_mem_append.mp hknown
    rw [hoistList]
    refine ((hoistStmt_lowers I x horderly.1 hkx hs).within _).bind fun ys st₁ h1 => ?_
    refine (hoistList_lowers I (i + 1) xs horderly.2 hkxs (hs.trans h1.grows)).bind
      fun zs st₂ h2 => ?_
    exact ends_pure.mpr (h1.append h2)

end

theorem flatten_ofList {ys : List Stmt} (h : ∀ y ∈ ys, y.flatten = [y]) :
    (Stmt.ofList ys).flatten = ys := by
  have hall : Stmt.flattenAll ys = ys := by
    induction ys with
    | nil => rfl
    | cons y ys ih =>
      rw [Stmt.flattenAll, h y mem_cons_self, ih fun z hz => h z (mem_cons_of_mem y hz)]
      rfl
  unfold Stmt.ofList
  split
  · exact h _ mem_cons_self
  · rw [Stmt.flatten, hall]

end Codegen.Semantics

namespace Codegen.Canonical

open Semantics List

/-- **Canonical forms preserve meaning.** Whatever label addresses, undefined operators, memory and
calls mean, a statement whose jumps and labels stand in sequences only and its canonical form run to
the same end from stores that agree on the memory, the calls made so far and the registers handed out
before: from the start, and from each label, the labels being the same in the same order. -/
theorem stmt_preserves_meaning {Mem : Type*} (I : Interp Mem) {x y : Stmt} {st st' : State}
    (horderly : isOrderly x = true) (hknown : ∀ r ∈ regsIn x, st.supply.Knows r)
    (h : stmt x st = .ok y st') :
    (∀ σ σ' : Store Mem, Same st.supply.Knows σ σ' →
      SameEnd I st.supply (exec I x σ) (exec I y σ')) ∧
    List.Forall₂ (SameEntry I st.supply) (entries x.flatten) (entries y.flatten) := by
  have hends : (stmt x).Ends st (fun y st' => ∃ ys, y = .ofList ys ∧
      Lowers I st.supply x.flatten st.supply st'.supply ys) fun _ => True := by
    rw [stmt, Pass.ends_map]
    exact (hoistStmt_lowers I x horderly hknown (.refl _)).mono
      (fun ys st₁ h1 => ⟨ys, rfl, h1⟩) fun _ h => h
  obtain ⟨ys, rfl, hlow⟩ := hends.of_ok h
  rw [flatten_ofList hlow.flat]
  refine ⟨fun σ σ' hσ => ?_, hlow.labels⟩
  rw [← execAll_flatten x, ← execAll_flatten (.ofList ys), flatten_ofList hlow.flat]
  exact hlow.run σ σ' hσ

/-- A loop that adds the result of a call to a word in memory. -/
def summing : Stmt :=
  .seq [.place (some ⟨0, 0, "top"⟩),
    .move (.temp (some ⟨0, 0, "sum"⟩))
      (.bin .add (.mem (.temp (some ⟨0, 0, "sum"⟩)))
        (.call (.addr (some ⟨0, 1, "next"⟩)) [.temp (some ⟨0, 0, "sum"⟩)] .missing) 0),
    .cjump .lt (.int 1) (.int 2) (some ⟨0, 0, "top"⟩) (some ⟨0, 2, ""⟩),
    .place (some ⟨0, 2, ""⟩)]

/-- The call moves in front of the sum, the word in memory is saved before it, and the conditional
jump is decided. -/
def summingForm : Stmt :=
  .seq [.place (some ⟨0, 0, "top"⟩),
    .move (.temp (some ⟨0, 2, ""⟩)) (.mem (.temp (some ⟨0, 0, "sum"⟩))),
    .move (.temp (some ⟨0, 1, ""⟩))
      (.call (.addr (some ⟨0, 1, "next"⟩)) [.temp (some ⟨0, 0, "sum"⟩)] .missing),
    .move (.temp (some ⟨0, 0, "sum"⟩))
      (.bin .add (.temp (some ⟨0, 2, ""⟩)) (.temp (some ⟨0, 1, ""⟩)) 0),
    .goto (some ⟨0, 0, "top"⟩),
    .place (some ⟨0, 2, ""⟩)]

theorem summing_preserved :
    stmt summing { supply := { labels := 3, regs := 1 } } =
        .ok summingForm { supply := { labels := 3, regs := 3 } } ∧
      ∀ (I : Interp (Int64 → Int64)) (σ : Store (Int64 → Int64)),
        SameEnd I { labels := 3, regs := 1 } (exec I summing σ) (exec I summingForm σ) := by
  have hform : stmt summing { supply := { labels := 3, regs := 1 } } =
      .ok summingForm { supply := { labels := 3, regs := 3 } } := rfl
  have hknown : ∀ r ∈ regsIn summing, Supply.Knows { labels := 3, regs := 1 } r := by decide
  exact ⟨hform, fun I σ => (stmt_preserves_meaning I rfl hknown hform).1 σ σ (.refl _ σ)⟩

end Codegen.Canonical
