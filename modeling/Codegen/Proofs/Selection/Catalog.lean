import Codegen.Proofs.Selection.Faithful
import Mathlib.Data.Fintype.EquivFin

/-!
# Catalogs that cover everything

The templates of a catalog come from the sources that it was made of (`mem_templates_addAll`). A catalog
covers everything if it has, for each class of nodes, a template that takes all operands from
registers (`Covers`): then there is a match for every node with known operators and conditions
(`Covers.find?_expr`, `Covers.find?_stmt`).
-/

namespace Codegen

open List

namespace TemplateSource

/-- The template that is made of the source. -/
def make? (reg? : String → Option Reg) (src : TemplateSource) : Option Template :=
  (Template.make reg? src.pattern src.skeletons src.wide).toOption

theorem make?_eq_some_iff {reg? : String → Option Reg} {src : TemplateSource} {t : Template} :
    src.make? reg? = some t ↔ Template.make reg? src.pattern src.skeletons src.wide = .ok t := by
  unfold make?
  cases Template.make reg? src.pattern src.skeletons src.wide <;> simp [Except.toOption]

/-! ### Faithful templates can be resolved -/

section

open Assembly

variable {isa : Isa} {reg? : String → Option Reg} {scratch : List String} {kinds : List LeafKind}

instance : Infinite Reg :=
  Infinite.of_injective (fun n : Nat => (⟨0, n, ""⟩ : Reg)) fun _ _ h => congrArg Reg.id h

theorem exists_not_isScratch (reg? : String → Option Reg) (scratch : List String) (d : Reg) :
    ∃ r, r ≠ d ∧ ¬ IsScratch reg? scratch (some r) := by
  obtain ⟨r, hr⟩ := Infinite.exists_notMem_finset (d :: scratch.filterMap reg?).toFinset
  rw [mem_toFinset, mem_cons, not_or] at hr
  refine ⟨r, hr.1, ?_⟩
  rintro ⟨n, hn, hreg⟩
  exact hr.2 (mem_filterMap.mpr ⟨n, hn, hreg⟩)

theorem exists_settled {P : Option Reg → Prop} (hP : ∃ r, P (some r)) (kinds : List LeafKind) :
    ∃ leaves, List.Forall₂ (Leaf.Settled P) kinds leaves := by
  obtain ⟨r, hr⟩ := hP
  induction kinds with
  | nil => exact ⟨[], .nil⟩
  | cons kind kinds ih =>
    obtain ⟨leaves, h⟩ := ih
    cases kind with
    | int => exact ⟨.int 0 :: leaves, .cons trivial h⟩
    | addr => exact ⟨.addr none :: leaves, .cons trivial h⟩
    | temp => exact ⟨.temp (some r) :: leaves, .cons hr h⟩

theorem exists_symbols_of_readAll {x : Node} {leaves : List Leaf} {dst : Option Reg}
    {skeletons : List Skeleton} {prog : List isa.Asm}
    (h : readAll isa reg? kinds x leaves dst skeletons = some prog) :
    ∀ s ∈ skeletons, ∃ ss, Part.symbols? reg? kinds s.text.toList = some ss := by
  induction skeletons generalizing prog with
  | nil => nofun
  | cons s skeletons ih =>
    rw [readAll] at h
    split at h
    · rename_i a as ha has
      obtain ⟨ts, hts, -⟩ := Option.bind_eq_some_iff.mp ha
      obtain ⟨ss, hss, -⟩ := Option.bind_eq_some_iff.mp hts
      exact forall_mem_cons.mpr ⟨⟨ss, hss⟩, ih has⟩
    · cases h

/-- The texts of a faithful template can be read. -/
theorem Faithful.readable {src : TemplateSource} (h : src.Faithful isa reg? scratch) :
    src.Readable reg? := by
  unfold Faithful at h
  obtain ⟨d, -, hd⟩ := exists_not_isScratch reg? scratch default
  obtain ⟨r, hne, hr⟩ := exists_not_isScratch reg? scratch d
  split at h
  · exact h
  · rename_i p _ hp
    obtain ⟨leaves, hleaves⟩ := exists_settled
      (P := fun r => r ≠ some d ∧ ¬ IsScratch reg? scratch r)
      ⟨r, fun heq => hne (Option.some.inj heq), hr⟩ p.leafKinds
    obtain ⟨prog, hread, -⟩ := h.2 (.expr p) d leaves hd hleaves
    exact exists_symbols_of_readAll hread
  · rename_i p hp
    obtain ⟨leaves, hleaves⟩ := exists_settled (P := fun r => ¬ IsScratch reg? scratch r) ⟨r, hr⟩
      p.leafKinds
    obtain ⟨-, prog, hread, -⟩ := h p leaves rfl hleaves
    exact exists_symbols_of_readAll hread

end

end TemplateSource

namespace Catalog

section Add

variable {c : Catalog} {pattern : Node} {skeletons : List Skeleton} {wide : Bool}

/-- A template that can be made is appended. -/
theorem add_of_make_ok {t : Template} (h : Template.make c.reg? pattern skeletons wide = .ok t) :
    add pattern skeletons wide c = .ok t { c with templates := c.templates ++ [t] } := by
  show EStateM.bind (Pass.ofExcept (Template.make c.reg? pattern skeletons wide)) _ c = _
  rw [h]
  rfl

/-- A template that can not be made fails before the catalog was written to. -/
theorem add_of_make_error {e : Error} (h : Template.make c.reg? pattern skeletons wide = .error e) :
    add pattern skeletons wide c = .error (.error e) c := by
  show EStateM.bind (Pass.ofExcept (Template.make c.reg? pattern skeletons wide)) _ c = _
  rw [h]
  rfl

end Add

theorem addAll_eq (c : Catalog) (srcs : List TemplateSource) : c.addAll srcs =
    { c with templates := c.templates ++ srcs.filterMap (·.make? c.reg?) } := by
  unfold addAll
  induction srcs generalizing c with
  | nil => simp
  | cons src srcs ih =>
    rw [foldl_cons, ih, filterMap_cons, Pass.stateAfter, TemplateSource.make?]
    cases h : Template.make c.reg? src.pattern src.skeletons src.wide with
    | error e =>
      rw [add_of_make_error h]
      rfl
    | ok t =>
      rw [add_of_make_ok h]
      show { c with templates := c.templates ++ [t] ++ _ } = _
      rw [append_assoc]
      rfl

variable {c : Catalog} {srcs : List TemplateSource} {t : Template}

theorem mem_templates_addAll (hc : c.templates = []) :
    t ∈ (c.addAll srcs).templates ↔ ∃ src ∈ srcs,
      Template.make c.reg? src.pattern src.skeletons src.wide = .ok t := by
  rw [addAll_eq, hc, nil_append, mem_filterMap]
  simp only [TemplateSource.make?_eq_some_iff]

/-- A source that can be resolved gives a template. -/
theorem exists_mem_templates_addAll (hc : c.templates = []) {src : TemplateSource}
    (hsrc : src ∈ srcs) (hp : src.pattern.checkPattern = .ok ()) (hs : src.Readable c.reg?)
    (hregs : ∀ s ∈ src.skeletons, ∀ n ∈ s.uses ++ s.defs, ∃ r, c.reg? n = some r) :
    ∃ t ∈ (c.addAll srcs).templates, t.pattern = src.pattern ∧ t.wide = src.wide := by
  have hrecipe : ∀ s ∈ src.skeletons, ∃ r, Recipe.ofSkeleton c.reg? src.pattern.leafKinds s = .ok r :=
    fun s h => by
      obtain ⟨ss, hss⟩ := hs s h
      exact Recipe.exists_ofSkeleton hss (hregs s h)
  obtain ⟨recipes, hr⟩ := exists_forall₂_iff.mpr hrecipe
  exact ⟨_, (mem_templates_addAll hc).mpr ⟨src, hsrc, Template.make_eq_ok_iff.mpr
    ⟨hp, recipes, hr, rfl⟩⟩, rfl, rfl⟩

theorem reg?_addAll (c : Catalog) (srcs : List TemplateSource) :
    (c.addAll srcs).reg? = c.reg? := by
  rw [addAll_eq]
  rfl

theorem fits_addAll (c : Catalog) (srcs : List TemplateSource) :
    (c.addAll srcs).fits = c.fits := by
  rw [addAll_eq]
  rfl

/-! ### Matches -/

theorem foldl_better_isSome {ms : List (Template × Binding)} {best : Option (Template × Binding)}
    (h : best.isSome = true ∨ ms ≠ []) : (ms.foldl better best).isSome = true := by
  induction ms generalizing best with
  | nil => exact h.resolve_right fun hne => hne rfl
  | cons m ms ih =>
    refine ih (Or.inl ?_)
    unfold better
    split
    · rfl
    · split <;> rfl

/-- A node that some template matches has a best match. -/
theorem exists_find?_of_mem {x : Node} {b : Binding} (ht : t ∈ c.templates)
    (hh : t.pattern.head = x.head) (hb : t.pattern.bind (c.accepts t) x = some b) :
    ∃ m, c.find? x = some m := by
  refine Option.isSome_iff_exists.mp (foldl_better_isSome (Or.inr ?_))
  refine ne_nil_of_mem (mem_filterMap.mpr ⟨t, ?_, ?_⟩ : (t, b) ∈ c.matching x)
  · exact mem_filter.mpr ⟨ht, decide_eq_true hh⟩
  · rw [hb]
    rfl

/-- The best match of a node is a template of the catalog. -/
theorem of_find? {x : Node} {b : Binding} (h : c.find? x = some (t, b)) :
    t ∈ c.templates ∧ t.pattern.head = x.head ∧ t.pattern.bind (c.accepts t) x = some b := by
  have hm := mem_matching_of_find? h
  simp only [matching, templatesOf, mem_filterMap, mem_filter, decide_eq_true_eq,
    Option.map_eq_some_iff] at hm
  obtain ⟨t', ⟨ht, hh⟩, b', hb, heq⟩ := hm
  cases heq
  exact ⟨ht, hh, hb⟩

/-- There is a template with this pattern. -/
def Has (c : Catalog) (p : Node) : Prop := ∃ t ∈ c.templates, t.pattern = p

open TemplateSource in
/-- For each class of nodes there is a template that takes all operands from registers. -/
structure Covers (c : Catalog) : Prop where
  constants : ∀ v, ∃ t ∈ c.templates, t.pattern = .expr num ∧ c.accepts t v = true
  labels : c.Has (.expr lab)
  registers : c.Has (.expr reg)
  memory : c.Has (.expr mem)
  operators : ∀ op : Op, op.isKnown = true → c.Has (.expr (bin op reg reg))
  calls : c.Has (.expr (.call reg [] .missing))
  moves : c.Has (.stmt (.move reg reg))
  stores : c.Has (.stmt (.move mem reg))
  jumps : c.Has (.stmt (.jump reg []))
  branches : ∀ cond : Cond, cond.isKnown = true → c.Has (.stmt (.cjump cond reg reg none none))
  places : c.Has (.stmt (.place none))

theorem Has.exists_find? {p x : Node} (h : c.Has p) (hh : p.head = x.head)
    (hb : ∀ fits, ∃ b, p.bind fits x = some b) : ∃ m, c.find? x = some m := by
  obtain ⟨t, ht, rfl⟩ := h
  obtain ⟨b, hb⟩ := hb (c.accepts t)
  exact exists_find?_of_mem ht hh hb

/-- A register matches everything. -/
theorem exists_bind_reg (fits : Int64 → Bool) (x : Expr) :
    ∃ b, TemplateSource.reg.bind fits x = some b := by
  cases x <;> exact ⟨_, rfl⟩

namespace Covers

variable (h : c.Covers)
include h

/-- There is a match for every expression with no unknown operator on top. -/
theorem find?_expr {x : Expr} (hx : (Node.expr x).head ≠ .none)
    (hk : (Node.expr x).head.isKnown = true) : ∃ m, c.find? (.expr x) = some m := by
  cases x with
  | missing | eseq => exact absurd rfl hx
  | int v =>
    obtain ⟨t, ht, hp, ha⟩ := h.constants v
    refine exists_find?_of_mem (b := ⟨1, [.int v]⟩) ht (by rw [hp]; rfl) ?_
    rw [hp]
    show (if ((0 : Int64) == 0 || _) && c.accepts t v then _ else _) = _
    rw [ha]
    rfl
  | addr l => exact h.labels.exists_find? rfl fun _ => ⟨_, rfl⟩
  | temp r => exact h.registers.exists_find? rfl fun _ => ⟨_, rfl⟩
  | bin op l r pos =>
    refine (h.operators op hk).exists_find? rfl fun fits => ?_
    obtain ⟨a, ha⟩ := exists_bind_reg fits l
    obtain ⟨b, hb⟩ := exists_bind_reg fits r
    exact ⟨(a.also b).above, by simp [Node.bind, TemplateSource.bin, Expr.bind, ha, hb]⟩
  | mem a =>
    refine h.memory.exists_find? rfl fun fits => ?_
    obtain ⟨b, hb⟩ := exists_bind_reg fits a
    exact ⟨b.above, by simp [Node.bind, TemplateSource.mem, Expr.bind, hb]⟩
  | call f args link =>
    refine h.calls.exists_find? rfl fun fits => ?_
    obtain ⟨b, hb⟩ := exists_bind_reg fits f
    exact ⟨b.above, by simp [Node.bind, Expr.bind, hb]⟩

/-- There is a match for a move, a jump with no unknown condition and a label. -/
theorem find?_stmt {x : Stmt} (hx : (Node.stmt x).head ≠ .none)
    (hk : (Node.stmt x).head.isKnown = true)
    (hd : ∀ d s, x = .move d s → d.isPlace = true) : ∃ m, c.find? (.stmt x) = some m := by
  cases x with
  | missing | eval | seq => exact absurd rfl hx
  | move d s =>
    cases d with
    | temp r =>
      refine h.moves.exists_find? rfl fun fits => ?_
      obtain ⟨b, hb⟩ := exists_bind_reg fits s
      exact ⟨_, congrArg (Option.map fun b => (Binding.also ⟨1, [.temp r]⟩ b).above) hb⟩
    | mem a =>
      refine h.stores.exists_find? rfl fun fits => ?_
      obtain ⟨b, hb⟩ := exists_bind_reg fits a
      obtain ⟨b', hb'⟩ := exists_bind_reg fits s
      exact ⟨(b.above.also b').above,
        by simp [Node.bind, Stmt.bind, TemplateSource.mem, Expr.bind, hb, hb']⟩
    | _ => cases hd _ _ rfl
  | jump d ts =>
    refine h.jumps.exists_find? rfl fun fits => ?_
    obtain ⟨b, hb⟩ := exists_bind_reg fits d
    exact ⟨b.above, by simp [Node.bind, Stmt.bind, hb]⟩
  | cjump cond l r t f =>
    refine (h.branches cond hk).exists_find? rfl fun fits => ?_
    obtain ⟨a, ha⟩ := exists_bind_reg fits l
    obtain ⟨b, hb⟩ := exists_bind_reg fits r
    exact ⟨(a.also b).above, by simp [Node.bind, Stmt.bind, ha, hb]⟩
  | place l => exact h.places.exists_find? rfl fun _ => ⟨_, rfl⟩

end Covers

end Catalog

end Codegen
