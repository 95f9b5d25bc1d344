import Codegen.Proofs.Selection.Amd64
import Codegen.Proofs.Selection.Arm64
import Codegen.Proofs.Selection.Covering
import Codegen.Proofs.Target

/-!
# The catalogs of both machines

Every template that is written down for a machine is in its catalog (`Arch.exists_template`), there
is one for each class of nodes (`Arch.covers`), and all of them are faithful to the instructions of
the machine (`Arch.sound`).
-/

namespace Codegen

open Assembly TemplateSource List

namespace Arch

/-- The templates as they are written down. -/
def sources : Arch → List TemplateSource
  | .amd64 => Target.Amd64.values ++ Target.Amd64.actions
  | .arm64 => Target.Arm64.values ++ Target.Arm64.actions

/-- The instructions of the machine. -/
def isa : Arch → Isa
  | .amd64 => Assembly.amd64
  | .arm64 => Assembly.arm64

/-- The registers that templates for values and statements name. -/
def scratch : Arch → List String
  | .amd64 => Target.Amd64.scratchNames
  | .arm64 => []

/-- The names of the registers that pass arguments. -/
def paramNames : Arch → List String
  | .amd64 => Target.Amd64.paramNames
  | .arm64 => Target.Arm64.paramNames

/-- The names of the registers that a function keeps. -/
def calleeSaveNames : Arch → List String
  | .amd64 => Target.Amd64.calleeSaveNames
  | .arm64 => Target.Arm64.calleeSaveNames

/-- The name of the register for the result of a function. -/
def resultName : Arch → String
  | .amd64 => "%rax"
  | .arm64 => "X0"

/-- What the names of registers say of a catalog over the registers that may be allocated. -/
structure Describes (a : Arch) (regs : List Reg) (c : Catalog) : Prop where
  regs : c.regs = regs.map some
  params : c.params = a.paramNames.map c.reg?
  calleeSave : c.calleeSave = a.calleeSaveNames.map c.reg?
  result : c.result = c.reg? a.resultName

theorem catalog_make (a : Arch) (s : Supply) : ∃ c : Catalog, c.templates = [] ∧
    a.Describes (s.namedRegs a.regNames).1 c ∧ (a.make s).1.catalog = c.addAll a.sources := by
  have hamd (regs : List Reg) (fp sp : Reg) : ∃ c : Catalog, c.templates = [] ∧
      amd64.Describes regs c ∧ Target.Amd64.catalog regs fp sp = c.addAll amd64.sources := by
    unfold Target.Amd64.catalog
    exact ⟨_, rfl, ⟨rfl, rfl, rfl, rfl⟩, rfl⟩
  have harm (regs : List Reg) (fp sp : Reg) : ∃ c : Catalog, c.templates = [] ∧
      arm64.Describes regs c ∧ Target.Arm64.catalog regs fp sp = c.addAll arm64.sources := by
    unfold Target.Arm64.catalog
    exact ⟨_, rfl, ⟨rfl, rfl, rfl, rfl⟩, rfl⟩
  cases a with
  | amd64 =>
    unfold make Target.Amd64.make
    dsimp only [regNames]
    exact hamd _ _ _
  | arm64 =>
    unfold make Target.Arm64.make
    dsimp only [regNames]
    exact harm _ _ _

theorem describes_make (a : Arch) (s : Supply) :
    a.Describes (s.namedRegs a.regNames).1 (a.make s).1.catalog := by
  obtain ⟨c, -, hdesc, hcat⟩ := catalog_make a s
  rw [hcat, Catalog.addAll_eq]
  exact ⟨hdesc.regs, hdesc.params, hdesc.calleeSave, hdesc.result⟩

variable {a : Arch} {s : Supply}

theorem hasScratch (s : Supply) :
    ∃ rax rcx rdx, Target.Amd64.HasScratch (amd64.make s).1.catalog.reg? rax rcx rdx := by
  have hmem : ∀ n ∈ Target.Amd64.scratchNames, n ∈ amd64.regNames ++ amd64.pointerNames := by decide
  obtain ⟨rax, hrax⟩ := exists_reg?_make .amd64 s (hmem "%rax" (by decide))
  obtain ⟨rcx, hrcx⟩ := exists_reg?_make .amd64 s (hmem "%rcx" (by decide))
  obtain ⟨rdx, hrdx⟩ := exists_reg?_make .amd64 s (hmem "%rdx" (by decide))
  refine ⟨rax, rcx, rdx, hrax, hrcx, hrdx, ?_⟩
  rintro rfl
  have h := (Catalog.of_reg?_eq_some hrax).2.symm.trans (Catalog.of_reg?_eq_some hrdx).2
  exact absurd h (by decide)

/-- Every template is faithful to the machine. -/
theorem faithful {src : TemplateSource} (h : src ∈ a.sources) :
    src.Faithful a.isa (a.make s).1.catalog.reg? a.scratch := by
  cases a with
  | amd64 =>
    obtain ⟨rax, rcx, rdx, hs⟩ := hasScratch s
    exact (mem_append.mp h).elim (Target.Amd64.values_faithful hs src)
      (Target.Amd64.actions_faithful src)
  | arm64 =>
    have hmem : "X0" ∈ arm64.regNames ++ arm64.pointerNames := by decide +kernel
    obtain ⟨x0, hx0⟩ := exists_reg?_make .arm64 s hmem
    exact (mem_append.mp h).elim (Target.Arm64.values_faithful hx0 src)
      (Target.Arm64.actions_faithful src)

/-! ### No template is left out -/

theorem checkPattern_of_mem {src : TemplateSource} (h : src ∈ a.sources) :
    src.pattern.checkPattern = .ok () := by
  have hall : ∀ src ∈ a.sources, src.pattern.checkPattern.toOption = some () := by
    cases a <;> decide
  have hsrc := hall src h
  cases hp : src.pattern.checkPattern with
  | ok u => rfl
  | error e =>
    rw [hp] at hsrc
    cases hsrc

theorem mem_regNames_of_mem {src : TemplateSource} (h : src ∈ a.sources) :
    ∀ s ∈ src.skeletons, ∀ n ∈ s.uses ++ s.defs, n ∈ a.regNames := by
  have hall : ∀ src ∈ a.sources, ∀ s ∈ src.skeletons, ∀ n ∈ s.uses ++ s.defs, n ∈ a.regNames := by
    cases a <;> decide +kernel
  exact hall src h

theorem exists_source {t : Template} (h : t ∈ (a.make s).1.catalog.templates) : ∃ src ∈ a.sources,
    Template.make (a.make s).1.catalog.reg? src.pattern src.skeletons src.wide = .ok t := by
  obtain ⟨c, hc, -, hcat⟩ := catalog_make a s
  rw [hcat, Catalog.mem_templates_addAll hc] at h
  rwa [hcat, Catalog.reg?_addAll]

/-- Every template that is written down is in the catalog. -/
theorem exists_template {src : TemplateSource} (h : src ∈ a.sources) :
    ∃ t ∈ (a.make s).1.catalog.templates, t.pattern = src.pattern ∧ t.wide = src.wide := by
  obtain ⟨c, hc, -, hcat⟩ := catalog_make a s
  have hreg : (a.make s).1.catalog.reg? = c.reg? := by rw [hcat, Catalog.reg?_addAll]
  rw [hcat]
  refine Catalog.exists_mem_templates_addAll hc h (checkPattern_of_mem h) ?_ fun sk hsk n hn => ?_
  · rw [← hreg]
    exact (faithful h).readable
  · rw [← hreg]
    exact exists_reg?_make a s (mem_append_left _ (mem_regNames_of_mem h sk hsk n hn))

/-- The patterns of the templates that are written down. -/
def patterns (a : Arch) : List Node := a.sources.map (·.pattern)

theorem mem_patterns_operator (a : Arch) {op : Op} (h : op.isKnown = true) :
    Node.expr (bin op reg reg) ∈ a.patterns := by
  rw [patterns, sources.eq_def]
  cases a with
  | amd64 =>
    have hop : (∃ n, (op, n) ∈ Target.Amd64.arith) ∨ (∃ n, (op, n) ∈ Target.Amd64.shifts) ∨
        op = .div := by
      cases op <;> simp [Target.Amd64.arith, Target.Amd64.shifts, Op.isKnown] at h ⊢
    simp only [Target.Amd64.values, map_append, mem_append, map_flatMap,
      mem_flatMap]
    obtain ⟨n, hn⟩ | ⟨n, hn⟩ | rfl := hop
    · exact .inl (.inl (.inl (.inr ⟨_, hn, mem_cons_of_mem _ mem_cons_self⟩)))
    · exact .inl (.inl (.inr ⟨_, hn, mem_cons_of_mem _ mem_cons_self⟩))
    · exact .inl (.inr mem_cons_self)
  | arm64 =>
    obtain ⟨n, hn⟩ : ∃ n, (op, n) ∈ Target.Arm64.arith := by
      cases op <;> simp [Target.Arm64.arith, Op.isKnown] at h ⊢
    simp only [Target.Arm64.values, map_append, mem_append, map_map, mem_map]
    exact .inl (.inl (.inl (.inr ⟨_, hn, rfl⟩)))

theorem mem_patterns_condition (a : Arch) {cond : Cond} (h : cond.isKnown = true) :
    Node.stmt (.cjump cond reg reg none none) ∈ a.patterns := by
  rw [patterns, sources.eq_def]
  cases a with
  | amd64 =>
    obtain ⟨n, hn⟩ : ∃ n, (cond, n) ∈ Target.Amd64.jumps := by
      cases cond <;> simp [Target.Amd64.jumps, Cond.isKnown] at h ⊢
    simp only [Target.Amd64.actions, map_append, mem_append, map_flatMap,
      mem_flatMap]
    exact .inr (.inl (.inr ⟨_, hn, mem_cons_of_mem _ mem_cons_self⟩))
  | arm64 =>
    obtain ⟨n, hn⟩ : ∃ n, (cond, n) ∈ Target.Arm64.conds := by
      cases cond <;> simp [Target.Arm64.conds, Cond.isKnown] at h ⊢
    simp only [Target.Arm64.actions, map_append, mem_append, map_flatMap,
      mem_flatMap]
    exact .inr (.inl (.inr ⟨_, hn, mem_cons_of_mem _ mem_cons_self⟩))

/-- The patterns for everything else, except constants. -/
theorem subset_patterns (a : Arch) :
    [.expr lab, .expr reg, .expr mem, .expr (.call reg [] .missing), .stmt (.move reg reg),
      .stmt (.move mem reg), .stmt (.jump reg []), .stmt (.place none)] ⊆ a.patterns := by
  cases a <;> simp [patterns, sources, Target.Amd64.values, Target.Amd64.actions,
    Target.Arm64.values, Target.Arm64.actions, value, action]

theorem has_of_mem_patterns {p : Node} (h : p ∈ a.patterns) : (a.make s).1.catalog.Has p := by
  obtain ⟨src, hsrc, rfl⟩ := mem_map.mp h
  obtain ⟨t, ht, hp, -⟩ := exists_template hsrc
  exact ⟨t, ht, hp⟩

/-- Every constant has a template: on one machine a wide one, on the other all constants fit. -/
theorem exists_accepts (a : Arch) (s : Supply) (v : Int64) :
    ∃ t ∈ (a.make s).1.catalog.templates,
      t.pattern = .expr num ∧ (a.make s).1.catalog.accepts t v = true := by
  cases a with
  | amd64 =>
    have hmem : wideValue num [op "movabsq $‹0›, ‹out›"] ∈ amd64.sources := by
      simp [sources, Target.Amd64.values]
    obtain ⟨t, ht, hp, hw⟩ := exists_template hmem
    refine ⟨t, ht, hp, ?_⟩
    rw [Catalog.accepts, hw]
    rfl
  | arm64 =>
    have hmem : value num [op "LDR ‹out›, =‹0›"] ∈ arm64.sources := by
      simp [sources, Target.Arm64.values]
    obtain ⟨t, ht, hp, -⟩ := exists_template hmem
    have hfits : (arm64.make s).1.catalog.fits v = true := by
      show (Catalog.addAll _ _).fits v = true
      rw [Catalog.fits_addAll]
      rfl
    refine ⟨t, ht, hp, ?_⟩
    rw [Catalog.accepts, hfits, Bool.or_true]

/-- The catalog has a template for each class of nodes. -/
theorem covers (a : Arch) (s : Supply) : (a.make s).1.catalog.Covers where
  constants := exists_accepts a s
  labels := has_of_mem_patterns (a.subset_patterns (by simp))
  registers := has_of_mem_patterns (a.subset_patterns (by simp))
  memory := has_of_mem_patterns (a.subset_patterns (by simp))
  operators _ h := has_of_mem_patterns (a.mem_patterns_operator h)
  calls := has_of_mem_patterns (a.subset_patterns (by simp))
  moves := has_of_mem_patterns (a.subset_patterns (by simp))
  stores := has_of_mem_patterns (a.subset_patterns (by simp))
  jumps := has_of_mem_patterns (a.subset_patterns (by simp))
  branches _ h := has_of_mem_patterns (a.mem_patterns_condition h)
  places := has_of_mem_patterns (a.subset_patterns (by simp))

/-- Selection for the machine is sound. -/
theorem sound (a : Arch) (s : Supply) : Selection.Sound (a.make s).1.kit a.isa a.scratch where
  covers := a.covers s
  faithful t ht := by
    obtain ⟨src, hsrc, hmake⟩ := exists_source ht
    exact ⟨src, hmake, faithful hsrc⟩

end Arch

end Codegen
