import Codegen.Proofs.Selection.Catalog
import Codegen.Proofs.Supply

/-!
# Covering trees

With a catalog that covers everything and whose templates are faithful, selection always comes to an
end, and its code does what the tree means: expressions leave their value in the register for it
(`selectExpr_computes`), what is left over is computed into fresh registers first
(`selectLeaves_computes`), and statements do what they say (`selectNode_performs`).
-/

namespace Codegen

open Semantics Assembly TemplateSource Pass List

/-! ### What expressions depend on -/

theorem Expr.Defined.of_same {Mem : Type} {I : Interp Mem} {K : Option Reg → Prop} {σ σ' : Store Mem}
    {x : Expr} (hd : x.Defined I σ) (h : Same K σ σ') (hx : x.isPlain = true)
    (hK : ∀ r ∈ regsOf x, K r) : x.Defined I σ' := by
  fun_induction Expr.isPlain x with
  | case1 | case2 | case3 => trivial
  | case4 op l r pos ihl ihr =>
    simp only [Bool.and_eq_true] at hx
    obtain ⟨hl, hr, hop⟩ := hd
    have hKl : ∀ w ∈ regsOf l, K w := fun w hw => hK w (mem_append_left _ hw)
    have hKr : ∀ w ∈ regsOf r, K w := fun w hw => hK w (mem_append_right _ hw)
    refine ⟨ihl hl hx.1.2 hKl, ihr hr hx.2 hKr, ?_⟩
    rwa [h.eval_of_isPure (Expr.isPure_of_isPlain hx.1.2) hKl,
      h.eval_of_isPure (Expr.isPure_of_isPlain hx.2) hKr]
  | case5 a ih => exact ih hd hx hK
  | case6 | case7 | case8 => cases hx

namespace Selection

/-- The templates of the catalog cover everything and do on the machine what they mean. -/
structure Sound (k : Kit) (isa : Isa) (scratch : List String) : Prop where
  covers : k.catalog.Covers
  faithful : ∀ t ∈ k.catalog.templates, ∃ src : TemplateSource,
    Template.make k.catalog.reg? src.pattern src.skeletons src.wide = .ok t ∧
      src.Faithful isa k.catalog.reg? scratch

variable {k : Kit} {isa : Isa} {scratch : List String} {st st' : State}

variable (k scratch) in
/-- The register is there, was handed out before and is not for scratch. -/
structure Usable (s : Supply) (r : Option Reg) : Prop where
  isSome : r.isSome = true
  knows : s.Knows r
  not_scratch : ¬ IsScratch k.catalog.reg? scratch r

theorem Usable.mono {s s' : Supply} {r : Option Reg} (h : Usable k scratch s r) (hs : s.Grows s') :
    Usable k scratch s' r := ⟨h.isSome, h.knows.mono hs, h.not_scratch⟩

variable (k scratch) in
/-- The register was not handed out between the two states and is not for scratch. -/
def Kept (s s' : Supply) (r : Option Reg) : Prop :=
  (∀ t, r = some t → ¬ s.Made s' t) ∧ ¬ IsScratch k.catalog.reg? scratch r

theorem Usable.kept {s s₁ s' : Supply} {r : Option Reg} (h : Usable k scratch s r) (hs : s.Grows s₁) :
    Kept k scratch s₁ s' r :=
  ⟨fun _ hr hm => (h.knows.mono hs).ne hm hr, h.not_scratch⟩

theorem Kept.of_grows {s s₁ s₂ s' : Supply} {r : Option Reg} (h : Kept k scratch s s' r)
    (h₁ : s.Grows s₁) (h₂ : s₂.Grows s') : Kept k scratch s₁ s₂ r :=
  ⟨fun t hr hm => h.1 t hr (hm.mono h₁ h₂), h.2⟩

variable (isa) in
/-- Selection appended code that the machine reads so. -/
structure Appends (st st' : State) (prog : List isa.Asm) : Prop where
  grows : st.supply.Grows st'.supply
  reads : ∃ code, st'.code = st.code ++ code ∧ List.Forall₂ isa.ReadsAs code prog

theorem Appends.refl (st : State) : Appends isa st st [] :=
  ⟨.refl _, [], (append_nil _).symm, .nil⟩

theorem Appends.trans {st'' : State} {as bs : List isa.Asm} (h : Appends isa st st' as)
    (h' : Appends isa st' st'' bs) : Appends isa st st'' (as ++ bs) := by
  obtain ⟨code, hcode, hread⟩ := h.reads
  obtain ⟨code', hcode', hread'⟩ := h'.reads
  refine ⟨h.grows.trans h'.grows, code ++ code', ?_, rel_append hread hread'⟩
  rw [hcode', hcode, append_assoc]

variable (k isa scratch) in
/-- Code was appended that leaves the value of the expression in the register. -/
def Leaves (x : Expr) (d : Reg) (st st' : State) : Prop :=
  ∃ prog, Appends isa st st' prog ∧ ∀ {Mem : Type} (I : Interp Mem) (m : Machine Mem),
    x.Defined I m.store → ∃ m', isa.run I k.catalog.reg? prog m = some (none, m') ∧
      m'.regs (some d) = (eval I x m.store).1 ∧
      Same (fun r => r ≠ some d ∧ Kept k scratch st.supply st'.supply r) m.store m'.store

/-- The leaf is the same, unless it was left over. -/
def Stays (l l' : Leaf) : Prop := (∀ e, l ≠ .glue e) → l' = l

variable (k isa scratch) in
/-- Code was appended that computes what was left over, so that only registers, constants and labels
are left. -/
def Resolves (ls ls' : List Leaf) (st st' : State) : Prop :=
  ∃ prog, Appends isa st st' prog ∧ List.Forall₂ Stays ls ls' ∧
    (∀ kinds, List.Forall₂ Leaf.Suits kinds ls → List.Forall₂ (Leaf.Settled fun r =>
      ¬ IsScratch k.catalog.reg? scratch r ∧
        ((∃ l ∈ ls, r ∈ regsOf l.expr) ∨ ∃ t, r = some t ∧ st.supply.Made st'.supply t)) kinds ls') ∧
    ∀ {Mem : Type} (I : Interp Mem) (m : Machine Mem), (∀ l ∈ ls, l.expr.Defined I m.store) →
      ∃ m', isa.run I k.catalog.reg? prog m = some (none, m') ∧
        Same (Kept k scratch st.supply st'.supply) m.store m'.store ∧
        ls'.map (Leaf.value I m'.store) = ls.map (Leaf.value I m.store)

/-! ### Finding a template -/

theorem find_eq_tell {x : Node} (hx : x.head.isKnown = true) {m : Template × Binding}
    (hm : k.catalog.find? x = some m) :
    find k x = (do
      tell x m.1 m.2
      return ⟨m, hm⟩) := by
  unfold find
  rw [hx]
  simp only [Bool.not_true, Bool.false_eq_true, if_false]
  revert hm
  generalize k.catalog.find? x = o
  rintro rfl
  rfl

theorem find_eq_fail {x : Node} (hx : x.head.isKnown = true) (hm : k.catalog.find? x = none) :
    find k x = Pass.fail (.unmatched (.node x.description x)) := by
  unfold find
  rw [hx]
  simp only [Bool.not_true, Bool.false_eq_true, if_false]
  revert hm
  generalize k.catalog.find? x = o
  rintro rfl
  rfl

/-- A node with a match: nothing but the log changes. -/
theorem find_ends {x : Node} (hk : x.head.isKnown = true) (hx : ∃ m, k.catalog.find? x = some m)
    (st : State) : Ends (find k x) st
      (fun _ st' => st'.supply = st.supply ∧ st'.code = st.code) fun _ => False := by
  obtain ⟨m, hm⟩ := hx
  rw [find_eq_tell hk hm, ends_bind]
  exact ends_modify.mpr (ends_pure.mpr ⟨rfl, rfl⟩)

theorem head_of_isPlain {x : Expr} (hx : x.isPlain = true) :
    (Node.expr x).head ≠ .none ∧ (Node.expr x).head.isKnown = true := by
  cases x with
  | bin op l r pos =>
    simp only [Expr.isPlain, Bool.and_eq_true] at hx
    exact ⟨by simp [Node.head], hx.1.1⟩
  | missing | call | eseq => cases hx
  | int | addr | temp | mem => exact ⟨by simp [Node.head], rfl⟩

/-- The template found for an expression computes what it matches. -/
theorem Sound.computes (hk : Sound k isa scratch) {x : Expr} (hx : x.isPlain = true) {t : Template}
    {b : Binding} (h : k.catalog.find? (.expr x) = some (t, b)) :
    ∃ (src : TemplateSource) (p : Expr),
      Template.make k.catalog.reg? src.pattern src.skeletons src.wide = .ok t ∧
        src.Computes isa k.catalog.reg? scratch p ∧ p.Binds (k.catalog.accepts t) x b := by
  obtain ⟨ht, hh, hb⟩ := Catalog.of_find? h
  obtain ⟨src, hmake, hfaith⟩ := hk.faithful t ht
  obtain ⟨-, recipes, -, rfl⟩ := Template.make_eq_ok_iff.mp hmake
  unfold Faithful at hfaith
  split at hfaith
  · rename_i f args link hp
    -- calls match calls only
    have hcall : (Node.expr (.call f args link)).head = (Node.expr x).head := hp ▸ hh
    cases x with
    | missing | call | eseq => cases hx
    | int | addr | temp | bin | mem => cases hcall
  · rename_i p _ hp
    simp only [hp] at hb
    exact ⟨src, p, hmake, hfaith, Expr.binds_of_bind hb⟩
  · rename_i p hp
    simp only [hp] at hb
    cases hb

theorem selectExpr_of_isPlain {x : Expr} (hx : x.isPlain = true) (dst : Option Reg) :
    selectExpr k x dst = (do
      let ⟨(t, b), _⟩ ← find k (.expr x)
      let leaves ← selectLeaves k b.leaves
      fill (.expr x) t leaves dst [] t.recipes) := by
  rw [selectExpr]
  · rintro s v rfl
    cases hx
  · rintro f args link rfl
    cases hx

/-! ### Expressions -/

theorem Resolves.nil (st : State) : Resolves k isa scratch [] [] st st :=
  ⟨[], .refl st, .nil, fun kinds h => by cases h; exact .nil,
    fun I m _ => ⟨m, rfl, .refl _ _, rfl⟩⟩

/-- A leaf that is not left over stays. -/
theorem Resolves.cons_settled {l : Leaf} {ls ls' : List Leaf}
    (h : Resolves k isa scratch ls ls' st st') (hl : ∀ e, l ≠ .glue e) (hplain : l.expr.isPlain = true)
    (hregs : ∀ r ∈ regsOf l.expr, Usable k scratch st.supply r) :
    Resolves k isa scratch (l :: ls) (l :: ls') st st' := by
  obtain ⟨prog, happ, hstays, hsettled, hrun⟩ := h
  refine ⟨prog, happ, .cons (fun _ => rfl) hstays, fun kinds hkinds => ?_, fun I m hd => ?_⟩
  · obtain ⟨kind, kinds, hsuits, hrest, rfl⟩ := forall₂_cons_right_iff.mp hkinds
    refine .cons (Leaf.settled_of_suits hsuits hl fun r hr => ?_)
      ((hsettled kinds hrest).imp fun kind l hs => hs.mono fun r hr => ⟨hr.1, hr.2.imp ?_ id⟩)
    · have hu := hregs r hr
      exact ⟨hu.isSome, hu.not_scratch, Or.inl ⟨l, mem_cons_self, hr⟩⟩
    · rintro ⟨l, hl, hr⟩
      exact ⟨l, mem_cons_of_mem _ hl, hr⟩
  · rw [forall_mem_cons] at hd
    obtain ⟨m', hm, hsame, hvals⟩ := hrun I m hd.2
    refine ⟨m', hm, hsame, ?_⟩
    rw [map_cons, map_cons, hvals]
    congr 1
    exact hsame.eval_of_isPure (Expr.isPure_of_isPlain hplain) fun r hr => (hregs r hr).kept (.refl _)

/-- What is left over first is computed into a fresh register. -/
theorem Resolves.cons_glue {e : Expr} {ls ls' : List Leaf} {st₁ st₂ : State}
    (h : Resolves k isa scratch ls ls' st₂ st')
    (hscratch : ∀ r, IsScratch k.catalog.reg? scratch r → st.supply.Knows r)
    (he : Leaves k isa scratch e st.supply.freshReg.1 st₁ st₂)
    (hcode : st₁.code = st.code) (hsupply : st₁.supply = st.supply.freshReg.2)
    (hplain : ∀ l ∈ ls, l.expr.isPlain = true)
    (hregs : ∀ l ∈ ls, ∀ r ∈ regsOf l.expr, Usable k scratch st.supply r) :
    Resolves k isa scratch (.glue e :: ls) (.temp (some st.supply.freshReg.1) :: ls') st st' := by
  obtain ⟨prog, happ, hrun⟩ := he
  obtain ⟨prog', happ', hstays, hsettled', hrun'⟩ := h
  set d := st.supply.freshReg.1 with hd
  have hgrows₁ : st.supply.Grows st₁.supply := hsupply ▸ st.supply.grows_freshReg
  have hmade : st.supply.Made st₁.supply d := hsupply ▸ st.supply.made_freshReg
  have hmade' : st.supply.Made st'.supply d :=
    hmade.mono (.refl _) (happ.grows.trans happ'.grows)
  have hd_scratch : ¬ IsScratch k.catalog.reg? scratch (some d) := fun hs =>
    (hscratch _ hs).ne hmade rfl
  have happ₁ : Appends isa st st₂ prog := by
    obtain ⟨code, hc, hr⟩ := happ.reads
    exact ⟨hgrows₁.trans happ.grows, code, by rw [hc, hcode], hr⟩
  refine ⟨prog ++ prog', happ₁.trans happ', .cons (fun h => absurd rfl (h e)) hstays,
    fun kinds hkinds => ?_, fun I m hdef => ?_⟩
  · obtain ⟨kind, kinds, hsuits, hrest, rfl⟩ := forall₂_cons_right_iff.mp hkinds
    refine .cons ?_ ((hsettled' kinds hrest).imp fun kind l hs => hs.mono fun r hr => ⟨hr.1, ?_⟩)
    · cases kind with
      | temp => exact ⟨hd_scratch, Or.inr ⟨d, rfl, hmade'⟩⟩
      | int | addr => cases hsuits
    · refine hr.2.imp ?_ ?_
      · rintro ⟨l, hl, hr⟩
        exact ⟨l, mem_cons_of_mem _ hl, hr⟩
      · rintro ⟨t, rfl, ht⟩
        exact ⟨t, rfl, ht.mono happ₁.grows (.refl _)⟩
  · rw [forall_mem_cons] at hdef
    obtain ⟨m₁, hm₁, hval, hsame₁⟩ := hrun I m hdef.1
    -- the other leaves do not notice
    have hK : ∀ l ∈ ls, ∀ r ∈ regsOf l.expr,
        r ≠ some d ∧ Kept k scratch st₁.supply st₂.supply r := fun l hl r hr =>
      ⟨(hregs l hl r hr).knows.ne hmade, (hregs l hl r hr).kept hgrows₁⟩
    obtain ⟨m₂, hm₂, hsame₂, hvals⟩ := hrun' I m₁ fun l hl =>
      (hdef.2 l hl).of_same hsame₁ (hplain l hl) (hK l hl)
    refine ⟨m₂, (Isa.run_append hm₁).trans hm₂, ?_, ?_⟩
    · refine (hsame₁.mono fun r hr => ⟨?_, hr.of_grows hgrows₁ happ'.grows⟩).trans
        (hsame₂.mono fun r hr => hr.of_grows happ₁.grows (.refl _))
      rintro rfl
      exact hr.1 d rfl hmade'
    · have hkept : Kept k scratch st₂.supply st'.supply (some d) :=
        ⟨fun t ht hm => ((hmade.mono (.refl _) happ.grows).knows).ne hm ht, hd_scratch⟩
      rw [map_cons, map_cons, hvals]
      refine congrArg₂ List.cons ((hsame₂.regs _ hkept).trans hval) ?_
      exact map_congr_left fun l hl =>
        hsame₁.eval_of_isPure (Expr.isPure_of_isPlain (hplain l hl)) (hK l hl)

/-- The template behind what was left over computes the expression. -/
theorem Resolves.leaves_fill {x : Expr} {d : Reg} {src : TemplateSource} {p : Expr} {t : Template}
    {fits : Int64 → Bool} {b : Binding} {ls : List Leaf}
    (h : Resolves k isa scratch b.leaves ls st st')
    (hmake : Template.make k.catalog.reg? src.pattern src.skeletons src.wide = .ok t)
    (hcomp : src.Computes isa k.catalog.reg? scratch p) (hb : p.Binds fits x b)
    (hx : x.isPlain = true) (hd : Usable k scratch st.supply (some d))
    (hdx : some d ∉ regsOf x) : ∃ st'', fill (.expr x) t ls (some d) [] t.recipes st' = .ok () st'' ∧
      Leaves k isa scratch x d st st'' := by
  obtain ⟨prog, happ, -, hsettled, hrun⟩ := h
  have hpure := Expr.isPure_of_isPlain hx
  have hne : ∀ r, ((∃ l ∈ b.leaves, r ∈ regsOf l.expr) ∨
      ∃ t, r = some t ∧ st.supply.Made st'.supply t) → r ≠ some d := by
    rintro r (⟨l, hl, hr⟩ | ⟨t, rfl, ht⟩) heq
    · exact hdx (heq ▸ Expr.regsOf_subset_of_mem_parts (hb.mem_parts hl) hr)
    · exact hd.knows.ne ht heq.symm
  have hls := (hsettled _ hb.suits).imp fun kind l hs => hs.mono
    (Q := fun r => r ≠ some d ∧ ¬ IsScratch k.catalog.reg? scratch r) fun r hr => ⟨hne r hr.2, hr.1⟩
  obtain ⟨prog', hread, hrun'⟩ := hcomp.2 (.expr x) d ls hd.not_scratch hls
  obtain ⟨code, hcode, hfill⟩ := fill_reads hmake hread
    (fun s hs hbranch => by rw [hcomp.1 s hs] at hbranch; cases hbranch) []
  refine ⟨_, hfill st', prog ++ prog', happ.trans ⟨.refl _, code, rfl, hcode⟩, fun I m hdef => ?_⟩
  obtain ⟨m₁, hm₁, hsame, hvals⟩ := hrun I m fun l hl =>
    Expr.defined_of_mem_parts hx hdef (hb.mem_parts hl)
  have hmem : m₁.mem = m.mem := hsame.mem
  have hden := hb.denote (I := I) (σ := m.store) hpure []
  have hdefAt := hb.definedAt hpure hdef []
  rw [append_nil] at hden hdefAt
  obtain ⟨m₂, hm₂, hval, hmem₂, hregs⟩ := hrun' I m₁ (by rw [hvals, hmem]; exact hdefAt)
  refine ⟨m₂, (Isa.run_append hm₁).trans hm₂, ?_, ?_, hmem₂.trans hmem, rfl⟩
  · rw [hval, hvals, hmem]
    exact congrArg Prod.fst hden
  · intro r hr
    exact (hregs r hr.1 hr.2.2).trans (hsame.regs r hr.2)

mutual

/-- The code selected for an expression leaves its value in the register for it. -/
theorem selectExpr_computes (hk : Sound k isa scratch) (x : Expr) (d : Reg) (st : State)
    (hscratch : ∀ r, IsScratch k.catalog.reg? scratch r → st.supply.Knows r)
    (hx : x.isPlain = true) (hregs : ∀ r ∈ regsOf x, Usable k scratch st.supply r)
    (hd : Usable k scratch st.supply (some d)) (hdx : some d ∉ regsOf x) :
    Ends (selectExpr k x (some d)) st (fun _ => Leaves k isa scratch x d st) fun _ => False := by
  obtain ⟨hhead, hknown⟩ := head_of_isPlain hx
  rw [selectExpr_of_isPlain hx]
  refine (find_ends hknown (hk.covers.find?_expr hhead hknown) st).bind ?_
  rintro ⟨⟨t, b⟩, hfind⟩ st₁ ⟨hsupply, hcode⟩
  have := Catalog.glueSize_find?_lt hfind
  obtain ⟨src, p, hmake, hcomp, hb⟩ := hk.computes hx hfind
  rw [ends_bind]
  have hparts : ∀ l ∈ b.leaves, l.expr ∈ x.parts := fun l hl => hb.mem_parts hl
  refine (selectLeaves_computes hk b.leaves st₁ (hsupply ▸ hscratch)
    (fun l hl => Expr.isPlain_of_mem_parts hx (hparts l hl)) fun l hl r hr => hsupply ▸
      hregs r (Expr.regsOf_subset_of_mem_parts (hparts l hl) hr)).imp ?_
  intro ls st₂ hres
  obtain ⟨st₃, hfill, hleaves⟩ := hres.leaves_fill hmake hcomp hb hx (hsupply ▸ hd) hdx
  refine ends_of_eq hfill ?_
  obtain ⟨prog, happ, hrun⟩ := hleaves
  refine ⟨prog, ?_, ?_⟩
  · exact ⟨hsupply ▸ happ.grows, hcode ▸ happ.reads⟩
  · rwa [hsupply] at hrun
termination_by (x.size, 0)
decreasing_by
  simp only [Prod.lex_def]
  omega

/-- What is left over is computed into fresh registers. -/
theorem selectLeaves_computes (hk : Sound k isa scratch) (ls : List Leaf) (st : State)
    (hscratch : ∀ r, IsScratch k.catalog.reg? scratch r → st.supply.Knows r)
    (hls : ∀ l ∈ ls, l.expr.isPlain = true)
    (hregs : ∀ l ∈ ls, ∀ r ∈ regsOf l.expr, Usable k scratch st.supply r) :
    Ends (selectLeaves k ls) st (fun ls' => Resolves k isa scratch ls ls' st) fun _ => False := by
  match ls with
  | [] =>
    rw [selectLeaves]
    exact ends_pure.mpr (.nil st)
  | .glue e :: rest =>
    rw [forall_mem_cons] at hls hregs
    have hgrows := st.supply.grows_freshReg
    have hmade := st.supply.made_freshReg
    have hnot : ¬ IsScratch k.catalog.reg? scratch (some st.supply.freshReg.1) := fun hs =>
      (hscratch _ hs).ne hmade rfl
    rw [selectLeaves, ends_bind]
    refine ends_step.mpr (ends_bind.mpr ?_)
    refine (selectExpr_computes hk e st.supply.freshReg.1 { st with supply := st.supply.freshReg.2 }
      (fun r hr => (hscratch r hr).mono hgrows) hls.1 (fun r hr => (hregs.1 r hr).mono hgrows)
      ⟨rfl, hmade.knows, hnot⟩ fun hr => (hregs.1 _ hr).knows.ne hmade rfl).imp ?_
    intro _ st₁ hleaves
    have hgrows₁ : st.supply.Grows st₁.supply := by
      obtain ⟨prog, happ, -⟩ := hleaves
      exact hgrows.trans happ.grows
    refine ends_bind.mpr ?_
    refine (selectLeaves_computes hk rest st₁ (fun r hr => (hscratch r hr).mono hgrows₁) hls.2
      fun l hl r hr => (hregs.2 l hl r hr).mono hgrows₁).imp ?_
    intro ls' st₂ hres
    exact ends_pure.mpr (hres.cons_glue hscratch hleaves rfl rfl hls.2 hregs.2)
  | .temp r :: rest | .int v :: rest | .addr a :: rest =>
    rw [forall_mem_cons] at hls hregs
    rw [selectLeaves, ends_bind]
    · refine (selectLeaves_computes hk rest st hscratch hls.2 hregs.2).imp ?_
      intro ls' st₂ hres
      exact ends_pure.mpr (hres.cons_settled nofun hls.1 hregs.1)
    · nofun
termination_by (Leaf.glueSize ls, ls.length + 1)
decreasing_by
  all_goals simp [Prod.lex_def, Leaf.glueSize]
  all_goals omega

end

/-! ### Statements -/

variable (k isa scratch) in
/-- Code was appended that does what the statement does. -/
def Carries (x : Stmt) (st st' : State) : Prop :=
  ∃ prog, Appends isa st st' prog ∧ ∀ {Mem : Type} (I : Interp Mem) (m : Machine Mem),
    x.Defined I m.store → ∃ m', isa.run I k.catalog.reg? prog m = some (x.transfer I m.store, m') ∧
      Same (Kept k scratch st.supply st'.supply) (exec I x m.store).2 m'.store

/-- The template found for a statement does what it matches. -/
theorem Sound.performs (hk : Sound k isa scratch) {x : Stmt} {t : Template} {b : Binding}
    (h : k.catalog.find? (.stmt x) = some (t, b)) : ∃ (src : TemplateSource) (p : Stmt),
      Template.make k.catalog.reg? src.pattern src.skeletons src.wide = .ok t ∧
        (Node.stmt x).head = (Node.stmt p).head ∧ src.Performs isa k.catalog.reg? scratch p ∧
        p.Binds (k.catalog.accepts t) x b := by
  obtain ⟨ht, hh, hb⟩ := Catalog.of_find? h
  obtain ⟨src, hmake, hfaith⟩ := hk.faithful t ht
  obtain ⟨-, recipes, -, rfl⟩ := Template.make_eq_ok_iff.mp hmake
  unfold Faithful at hfaith
  split at hfaith
  · rename_i hp
    simp only [hp] at hb
    cases hb
  · rename_i hp
    simp only [hp] at hb
    cases hb
  · rename_i p hp
    simp only [hp] at hh hb
    exact ⟨src, p, hmake, hh.symm, hfaith, Stmt.binds_of_bind hb⟩

theorem head_of_isPlain_stmt {x : Stmt} (hx : x.isPlain = true) :
    (Node.stmt x).head ≠ .none ∧ (Node.stmt x).head.isKnown = true ∧
      ∀ d s, x = .move d s → d.isPlace = true := by
  unfold Stmt.isPlain at hx
  split at hx
  · exact ⟨nofun, rfl, fun d s h => by cases h; rfl⟩
  · exact ⟨nofun, rfl, fun d s h => by cases h; rfl⟩
  · exact ⟨nofun, rfl, nofun⟩
  · simp only [Bool.and_eq_true] at hx
    exact ⟨nofun, hx.1.1, nofun⟩
  · cases hx

/-- The template behind what was left over does what the statement does. -/
theorem Resolves.carries_fill {x : Stmt} {src : TemplateSource} {p : Stmt} {t : Template}
    {fits : Int64 → Bool} {b : Binding} {ls : List Leaf}
    (h : Resolves k isa scratch b.leaves ls st st')
    (hmake : Template.make k.catalog.reg? src.pattern src.skeletons src.wide = .ok t)
    (hhead : (Node.stmt x).head = (Node.stmt p).head)
    (hperf : src.Performs isa k.catalog.reg? scratch p) (hb : p.Binds fits x b)
    (hx : x.isPlain = true) :
    ∃ st'', fill (.stmt x) t ls none [] t.recipes st' = .ok () st'' ∧
      Carries k isa scratch x st st'' := by
  obtain ⟨prog, happ, hstays, hsettled, hrun⟩ := h
  have hls := (hsettled _ hb.suits).imp fun kind l hs => hs.mono
    (Q := fun r => ¬ IsScratch k.catalog.reg? scratch r) fun r hr => hr.1
  obtain ⟨hbranch, prog', hread, hrun'⟩ := hperf x ls hhead hls
  obtain ⟨code, hcode, hfill⟩ := fill_reads hmake hread hbranch []
  refine ⟨_, hfill st', prog ++ prog', happ.trans ⟨.refl _, code, rfl, hcode⟩, fun I m hdef => ?_⟩
  obtain ⟨m₁, hm₁, hsame, hvals⟩ := hrun I m fun l hl => by
    obtain ⟨e, he, hle⟩ := hb.mem_parts hl
    exact Expr.defined_of_mem_parts (Stmt.isPlain_of_mem_exprs hx e he)
      (Stmt.defined_of_mem_exprs hdef e he) hle
  have hmem : m₁.mem = m.mem := hsame.mem
  have hmove : ∀ q s, p = .move (.temp q) s → ∃ r rest rest', b.leaves = .temp r :: rest ∧
      ls = .temp r :: rest' := by
    rintro q s rfl
    obtain ⟨r, rest, hleaves⟩ := Stmt.leaves_of_binds_move hb
    rw [hleaves] at hstays
    obtain ⟨l, rest', hl, -, rfl⟩ := forall₂_cons_left_iff.mp hstays
    exact ⟨r, rest, rest', hleaves, by rw [hl nofun]⟩
  obtain ⟨hout, heffect⟩ := Stmt.enact_same (I := I) x.onTrue hsame hvals hmove
  have henact := hb.enact (I := I) (σ := m.store) hx
  obtain ⟨m₂, hm₂, hmem₂, hregs₂⟩ := hrun' I m₁ (by
    rw [hvals, hmem]
    exact hb.definedAt hx hdef)
  rw [henact] at hout heffect
  refine ⟨m₂, (Isa.run_append hm₁).trans (by rw [hm₂, hout]), fun r hr => ?_, ?_, ?_⟩
  · exact (hregs₂ r hr.2).trans (heffect.regs r hr)
  · exact hmem₂.trans heffect.mem
  · exact (Stmt.calls_enact x.onTrue m₁.store p ls).symm.trans heffect.calls

/-- The code selected for a statement does what the statement does. -/
theorem selectNode_performs (hk : Sound k isa scratch) {x : Stmt} (st : State)
    (hscratch : ∀ r, IsScratch k.catalog.reg? scratch r → st.supply.Knows r)
    (hx : x.isPlain = true) (hregs : ∀ r ∈ regsIn x, Usable k scratch st.supply r) :
    Ends (selectNode k x) st (fun _ => Carries k isa scratch x st) fun _ => False := by
  obtain ⟨hhead, hknown, hplace⟩ := head_of_isPlain_stmt hx
  rw [selectNode]
  refine (find_ends hknown (hk.covers.find?_stmt hhead hknown hplace) st).bind ?_
  rintro ⟨⟨t, b⟩, hfind⟩ st₁ ⟨hsupply, hcode⟩
  obtain ⟨src, p, hmake, hh, hperf, hb⟩ := hk.performs hfind
  refine (selectLeaves_computes hk b.leaves st₁ (hsupply ▸ hscratch) (fun l hl => ?_)
    fun l hl r hr => ?_).bind ?_
  · obtain ⟨e, he, hle⟩ := hb.mem_parts hl
    exact Expr.isPlain_of_mem_parts (Stmt.isPlain_of_mem_exprs hx e he) hle
  · obtain ⟨e, he, hle⟩ := hb.mem_parts hl
    exact hsupply ▸ hregs r (Stmt.regsOf_subset_of_mem_exprs e he
      (Expr.regsOf_subset_of_mem_parts hle hr))
  · intro ls st₂ hres
    obtain ⟨st₃, hfill, prog, happ, hrun⟩ := hres.carries_fill hmake hh hperf hb hx
    refine ends_of_eq hfill ⟨prog, ⟨hsupply ▸ happ.grows, hcode ▸ happ.reads⟩, ?_⟩
    rwa [hsupply] at hrun

end Selection

end Codegen
