import Codegen.Proofs.Selection.Weaving
import Codegen.Proofs.Tree.Shape

/-!
# Progress of selection

On an apt machine code is selected for every tree without statements inside of expressions
(`apt_weaves`, `selectStmts_selects`). It is made of stretches: a filled-in template needs no
registers of the machine from before, except that a call needs those that its arguments were placed
in just before.
-/

namespace Codegen

open Allocation Pass Code Semantics List

variable {P : Option Reg → Prop}

/-- Where control may go from a node, except to what follows. -/
def Node.dests : Node → List (Option Label)
  | .expr _ => []
  | .stmt s => s.dests

theorem Expr.Selectable.of_mem_parts {L : Option Label → Prop} {x e : Expr}
    (hx : x.Selectable P L) (he : e ∈ x.parts) : e.Selectable P L :=
  Expr.of_mem_parts (P := (·.Selectable P L)) hx he And.right id And.left

theorem Stmt.Selectable.of_mem_exprs {L : Option Label → Prop} {x : Stmt}
    (hx : x.Selectable P L) : ∀ e ∈ x.exprs, e.Selectable P L := by
  cases x with
  | missing | seq => cases hx
  | eval | place => nofun
  | move d s =>
    cases d with
    | temp | mem => exact forall_mem_cons.mpr ⟨hx.1, forall_mem_singleton.mpr hx.2⟩
    | missing | int | addr | bin | call | eseq => cases hx
  | jump d targets => exact forall_mem_singleton.mpr hx.1
  | cjump c l r t f => exact forall_mem_cons.mpr ⟨hx.2.1, forall_mem_singleton.mpr hx.2.2.1⟩

/-! ### Code that was selected -/

/-- Code made of stretches over registers that can be named or allocated, which places the given
labels and jumps only to some. -/
structure Target.Selected (t : Target) (s : Supply) (labels : List Label)
    (dests : List (Option Label)) (c : Code) : Prop where
  stretches : Stretches t.catalog (some t.fp) t.catalog.regs.length c
  regs : ∀ r ∈ c.regs, t.Nameable s r ∨ r ∈ t.catalog.regs
  labels : c.labels = labels
  dests : ∀ i ∈ c, ∀ l ∈ i.dests, l ∈ dests
  silent : ∀ i ∈ c, i.label ≠ none → i.reads = []

namespace Target.Selected

variable {t : Target} {s s' : Supply} {ls ls' : List Label} {ds ds' : List (Option Label)} {c c' : Code}

theorem nil : t.Selected s [] [] [] := ⟨.nil, nofun, rfl, nofun, nofun⟩

theorem mono (h : t.Selected s ls ds c) (hs : s.Grows s') : t.Selected s' ls ds c :=
  { h with regs := fun r hr => (h.regs r hr).imp_left fun h => h.mono hs }

theorem append (h : t.Selected s ls ds c) (h' : t.Selected s ls' ds' c') :
    t.Selected s (ls ++ ls') (ds ++ ds') (c ++ c') where
  stretches := h.stretches.append h'.stretches
  regs := by
    rw [regs_append, forall_mem_append]
    exact ⟨h.regs, h'.regs⟩
  labels := by rw [labels_append, h.labels, h'.labels]
  dests := by
    rw [forall_mem_append]
    exact ⟨fun i hi l hl => mem_append_left _ (h.dests i hi l hl),
      fun i hi l hl => mem_append_right _ (h'.dests i hi l hl)⟩
  silent := by
    rw [forall_mem_append]
    exact ⟨h.silent, h'.silent⟩

end Target.Selected

namespace Selection

variable {t : Target} {base : Supply} {names : List String} {st : State} {L : Option Label → Prop}

/-! ### Filled-in templates -/

section Fill

variable {x : Node} {leaves : List Leaf} {dst : Option Reg} {used : List (Option Reg)} {r : Recipe}
  {rs : List Recipe} {i : Instr} {c : Code} {tpl : Template} {s : Supply} {P : Option Reg → Prop}

theorem Leaf.Settled.of_mem {kinds : List LeafKind} (h : List.Forall₂ (Leaf.Settled P) kinds leaves)
    {u : Option Reg} (hu : .temp u ∈ leaves) : P u := by
  induction h with
  | nil => cases hu
  | @cons k l ks ls hl _ ih =>
    obtain rfl | hu := mem_cons.mp hu
    · cases k with
      | int | addr => cases hl
      | temp =>
        cases u with
        | none => cases hl
        | some q => exact hl
    · exact ih hu

/-- The register that a leaf is bound to. -/
def leafReg : Leaf → Option Reg
  | .temp r => r
  | _ => none

theorem IsInstance.dests_subset (h : IsInstance x leaves dst used r i) : ∀ l ∈ i.dests, l ∈ x.dests := by
  have hdests := h.dests
  generalize i.dests = ds at hdests ⊢
  generalize i.next = next at hdests
  unfold destsOf at hdests
  split at hdests
  · unfold branchDests at hdests
    split at hdests
    · cases hdests
      exact fun _ => id
    · cases hdests
      exact fun _ => id
    · cases hdests
  · cases hdests
    nofun

/-- A register of the machine that instances need is needed by name. -/
theorem mem_needs {reg? : String → Option Reg} {q : Reg} (hq : reg? q.name = some q)
    (h : List.Forall₂ (IsInstance x leaves dst used) rs c)
    (hfound : ∀ r ∈ rs, ∀ w ∈ r.fixedReads ++ r.fixedWrites, reg? w.name = some w)
    (hleaf : .temp (some q) ∉ leaves) (hdst : some q ≠ dst) (hused : some q ∉ used)
    (hneeds : Needs (some q) c) : q.name ∈ Recipe.needs rs := by
  induction h with
  | nil => cases hneeds
  | @cons r i rs c hi _ ih =>
    rw [forall_mem_cons] at hfound
    rw [Recipe.needs, mem_append, mem_filter]
    obtain hread | ⟨hwrite, hneeds⟩ := hneeds
    · obtain hl | ⟨-, hd⟩ | ⟨w, hw, hqw⟩ | ⟨-, hu⟩ := hi.reads_cases hread
      · exact absurd hl hleaf
      · exact absurd hd hdst
      · cases hqw
        exact .inl (mem_map_of_mem hw)
      · exact absurd hu hused
    · refine .inr ⟨ih hfound.2 hneeds, ?_⟩
      rw [Bool.not_eq_true', Bool.eq_false_iff, ne_eq, contains_iff_mem, mem_map]
      rintro ⟨w, hw, hname⟩
      have hwq := hfound.1 w (mem_append_right _ hw)
      rw [hname, hq] at hwq
      cases hwq
      exact hwrite (hi.mem_writes hw)

/-- What is known of the template, its leaves and the registers for the value and the arguments when
it is filled in. -/
structure Ready (t : Target) (names : List String) (s : Supply) (x : Node) (tpl : Template)
    (leaves : List Leaf) (dst : Option Reg) (used : List (Option Reg)) : Prop where
  tidy : tpl.Tidy t.catalog.reg? names
  head : tpl.pattern.head = x.head
  leaves : List.Forall₂ (Leaf.Settled (t.Nameable s)) tpl.pattern.leafKinds leaves
  dst : ∀ d, dst = some d → t.Nameable s (some d)
  used : ∀ r ∈ used, r ∈ t.named names

variable (hready : Ready t names s x tpl leaves dst used)
include hready

theorem Ready.modest (hr : r ∈ tpl.recipes) (hkept : r.isKept dst = true)
    (h : IsInstance x leaves dst used r i) : t.Modest (t.named names) 4 s i := by
  have hsuits := hready.tidy.suits r hr
  simp only [Recipe.suits, Bool.and_eq_true, all_eq_true, contains_iff_mem] at hsuits
  obtain ⟨⟨⟨⟨hparts, hnames⟩, -⟩, -⟩, -⟩ := hsuits
  have hfixed : ∀ q ∈ r.fixedReads ++ r.fixedWrites, some q ∈ t.named names := fun q hq =>
    mem_map.mpr ⟨q.name, hnames q hq, hready.tidy.found r hr q hq⟩
  have hleaf {u : Option Reg} (hu : .temp u ∈ leaves) :
      t.Nameable s u ∧ u ∈ leaves.map leafReg ++ [dst] :=
    ⟨Leaf.Settled.of_mem hready.leaves hu,
      mem_append_left _ (mem_map.mpr ⟨_, hu, rfl⟩)⟩
  have hout {u : Option Reg} (hu : (∃ access, .out access ∈ r.parts) ∧ u = dst) :
      t.Nameable s u ∧ u ∈ leaves.map leafReg ++ [dst] := by
    obtain ⟨⟨access, hout⟩, rfl⟩ := hu
    refine ⟨?_, by simp⟩
    have hmakes : r.makesValue = true := any_eq_true.mpr ⟨_, hout, hparts _ hout⟩
    cases u with
    | none =>
      rw [Recipe.isKept, hmakes] at hkept
      cases hkept
    | some d => exact hready.dst d rfl
  refine ⟨leaves.map leafReg ++ [dst], ?_, fun u hu => ?_⟩
  · have hlen := hready.leaves.length_eq
    have hthree := hready.tidy.leaves
    rw [length_append, length_map, length_singleton]
    omega
  · obtain hu | hu := mem_append.mp hu
    · obtain hl | hd | ⟨q, hq, rfl⟩ | ⟨-, hu⟩ := h.reads_cases hu
      · exact .inl (hleaf hl)
      · exact .inl (hout hd)
      · exact .inr (hfixed q (mem_append_left _ hq))
      · exact .inr (hready.used u hu)
    · obtain hl | hd | ⟨q, hq, rfl⟩ := h.writes_cases hu
      · exact .inl (hleaf hl)
      · exact .inl (hout hd)
      · exact .inr (hfixed q (mem_append_right _ hq))

/-- What a filled-in template needs holds an argument. -/
theorem Ready.needs (ht : t.Apt base names)
    (h : List.Forall₂ (IsInstance x leaves dst used) (tpl.recipes.filter (Recipe.isKept dst)) c)
    {u : Option Reg} (hu : u ∈ t.catalog.regs) (hneeds : Needs u c) : u ∈ used := by
  by_contra hused
  obtain ⟨q, rfl, hq⟩ := ht.machine u hu
  rw [Catalog.isMachine, beq_iff_eq] at hq
  have hmem := mem_needs hq h
    (fun r hr => hready.tidy.found r (mem_of_mem_filter hr))
    (fun hl => ht.not_mem_regs (Leaf.Settled.of_mem hready.leaves hl) hu)
    (fun hd => ht.not_mem_regs (hready.dst q hd.symm) hu) hused hneeds
  rw [hready.tidy.needs] at hmem
  cases hmem

/-- Code that was filled in. -/
structure Filled (t : Target) (names : List String) (s : Supply) (x : Node)
    (used : List (Option Reg)) (c : Code) : Prop where
  modest : ∀ i ∈ c, t.Modest (t.named names) 4 s i
  needs : ∀ u ∈ t.catalog.regs, Needs u c → u ∈ used
  labels : c.labels = x.placed?.toList
  unlabelled : ∀ i ∈ c.tail, i.label = none
  dests : ∀ i ∈ c, ∀ l ∈ i.dests, l ∈ x.dests
  silent : ∀ i ∈ c, i.label ≠ none → i.reads = []

/-- The recipes of a template that places a label. -/
theorem Ready.place_cases (hx : x.head = .place)
    (h : List.Forall₂ (IsInstance x leaves dst used) (tpl.recipes.filter (Recipe.isKept dst)) c) :
    ∃ i, c = [i] ∧ i.label = x.placed? ∧ i.reads = [] := by
  have hhead := hready.head.trans hx
  obtain ⟨hlen, hvalue⟩ := hready.tidy.place hhead
  obtain ⟨r, hr⟩ := length_eq_one_iff.mp hlen
  have hsuits := hready.tidy.suits r (by simp [hr])
  have hneeds := hready.tidy.needs dst
  have hnot : r.makesValue = false := hvalue r (by simp [hr])
  have hfilter : tpl.recipes.filter (Recipe.isKept dst) = [r] := by
    rw [hr, filter_cons_of_pos (by simp [Recipe.isKept, hnot]), filter_nil]
  rw [hfilter] at h hneeds
  obtain ⟨i, rest, hi, hrest, rfl⟩ := forall₂_cons_left_iff.mp h
  cases hrest
  simp only [Recipe.suits, hhead, Bool.and_eq_true, Bool.or_eq_true, all_eq_true,
    any_eq_true, decide_eq_true_eq, Bool.not_eq_true', ne_eq, not_true_eq_false,
    or_false] at hsuits
  obtain ⟨⟨⟨⟨hparts, -⟩, -⟩, hcall⟩, p, hp, rfl⟩ := hsuits
  refine ⟨i, rfl, by rw [hi.label, if_pos hp], eq_nil_iff_forall_not_mem.mpr fun u hu => ?_⟩
  obtain ⟨y, hy⟩ := Node.of_head_place hhead
  have hleaves := hready.leaves
  rw [hy] at hleaves
  obtain rfl := forall₂_nil_left_iff.mp hleaves
  obtain hl | ⟨⟨access, hout⟩, -⟩ | ⟨q, hq, -⟩ | ⟨hc, -⟩ := hi.reads_cases hu
  · cases hl
  · have hmakes : r.makesValue = true := any_eq_true.mpr ⟨_, hout, hparts _ hout⟩
    rw [hnot] at hmakes
    cases hmakes
  · simp only [Recipe.needs, filter_nil, append_nil, map_eq_nil_iff] at hneeds
    rw [hneeds] at hq
    cases hq
  · rw [hc] at hcall
    simp at hcall

theorem Ready.filled (ht : t.Apt base names)
    (h : List.Forall₂ (IsInstance x leaves dst used) (tpl.recipes.filter (Recipe.isKept dst)) c) :
    Filled t names s x used c := by
  have hall : ∀ i ∈ c, ∃ r ∈ tpl.recipes, r.isKept dst = true ∧ IsInstance x leaves dst used r i := by
    intro i hi
    obtain ⟨r, hr, hinst⟩ := exists_mem_of_forall₂ h hi
    exact ⟨r, mem_of_mem_filter hr, of_mem_filter hr, hinst⟩
  have hmodest : ∀ i ∈ c, t.Modest (t.named names) 4 s i := fun i hi => by
    obtain ⟨r, hr, hkept, hinst⟩ := hall i hi
    exact hready.modest hr hkept hinst
  have hneeds : ∀ u ∈ t.catalog.regs, Needs u c → u ∈ used := fun u hu => hready.needs ht h hu
  have hdests : ∀ i ∈ c, ∀ l ∈ i.dests, l ∈ x.dests := fun i hi => by
    obtain ⟨r, -, -, hinst⟩ := hall i hi
    exact hinst.dests_subset
  by_cases hx : x.head = .place
  · obtain ⟨i, rfl, hlabel, hreads⟩ := hready.place_cases hx h
    refine ⟨hmodest, hneeds, ?_, nofun, hdests, ?_⟩
    · rw [Code.labels, filterMap_cons, hlabel]
      cases x.placed? <;> rfl
    · exact forall_mem_singleton.mpr fun _ => hreads
  · -- only what places a label has one
    have hnone : ∀ i ∈ c, i.label = none := fun i hi => by
      obtain ⟨r, hr, -, hinst⟩ := hall i hi
      rw [hinst.label, if_neg]
      intro hp
      have hsuits := hready.tidy.suits r hr
      simp only [Recipe.suits, Bool.and_eq_true, all_eq_true] at hsuits
      have hlabel := hsuits.1.1.1.1 _ hp
      rw [Part.suits, hready.head, decide_eq_true_eq] at hlabel
      exact hx hlabel
    have hplaced : x.placed? = none := by
      rcases x with e | y
      · rfl
      · cases y with
        | place => exact absurd rfl hx
        | missing | move | eval | jump | cjump | seq => rfl
    refine ⟨hmodest, hneeds, ?_, fun i hi => hnone i (mem_of_mem_tail hi), hdests,
      fun i hi hl => absurd (hnone i hi) hl⟩
    rw [hplaced]
    exact filterMap_eq_nil_iff.mpr hnone

end Fill

namespace Filled

variable {x : Node} {used : List (Option Reg)} {s : Supply} {c p q : Code}

/-- A template that needs nothing is a stretch. -/
theorem selected (ht : t.Apt base names) (h : Filled t names s x [] c) :
    t.Selected s x.placed?.toList x.dests c where
  stretches := Stretch.stretches ⟨ht.roomy_of_modest (fun _ => ht.mem_regs_of_named) ht.room_named h.modest,
    fun r hr hneeds => absurd (h.needs r hr hneeds) (not_mem_nil), h.unlabelled⟩
  regs := Target.nameable_or_mem_regs (fun _ => ht.mem_regs_of_named) h.modest
  labels := h.labels
  dests := h.dests
  silent := h.silent

end Filled

/-! ### Calls -/

/-- Code without labels and jumps. -/
def Straight (c : Code) : Prop := ∀ i ∈ c, i.label = none ∧ i.dests = []

section Call

variable {args : List (Option Reg)} {link : Option Reg} {s : Supply}

/-- What the instructions that place arguments are. -/
theorem mem_placeArgs {i : Instr} (hi : i ∈ (t.placeArgs args link).1) :
    (∃ text, i = .plain text) ∨ (∃ r ∈ args, i = { text := t.dialect.push, reads := [r] }) ∨
      ∃ p ∈ t.transfers args link, i = t.dialect.move p.1 p.2 := by
  rw [Target.placeArgs_eq] at hi
  simp only [mem_append, mem_map, mem_reverse] at hi
  obtain (hi | ⟨r, hr, rfl⟩) | ⟨p, hp, rfl⟩ := hi
  · split at hi
    · cases hi
    · obtain ⟨text, -, rfl⟩ := mem_map.mp hi
      exact .inl ⟨text, rfl⟩
  · exact .inr (.inl ⟨r, mem_of_mem_drop hr, rfl⟩)
  · exact .inr (.inr ⟨p, hp, rfl⟩)

theorem mem_transfers {p : Option Reg × Option Reg} (hp : p ∈ t.transfers args link) :
    p.2 ∈ args ∨ link.isSome = true ∧ p.2 = link := by
  obtain hp | hp := mem_append.mp hp
  · exact .inl (of_mem_zip hp).2
  · split at hp
    · rename_i h
      rw [mem_singleton.mp hp]
      exact .inr ⟨h, rfl⟩
    · cases hp

theorem straight_placeArgs : Straight (t.placeArgs args link).1 := by
  intro i hi
  obtain ⟨text, rfl⟩ | ⟨r, -, rfl⟩ | ⟨p, -, rfl⟩ := mem_placeArgs hi
  · exact ⟨rfl, rfl⟩
  · exact ⟨rfl, rfl⟩
  · exact ⟨rfl, rfl⟩

theorem mem_removeArgs {i : Instr} (hi : i ∈ t.removeArgs args) : ∃ text, i = .plain text := by
  unfold Target.removeArgs at hi
  dsimp only at hi
  split at hi
  · cases hi
  · exact ⟨_, mem_singleton.mp hi⟩

variable (hargs : ∀ r ∈ args, t.Nameable s r) (hlink : link.isSome = true → t.Nameable s link)
include hargs hlink

theorem nameable_of_mem_transfers {p : Option Reg × Option Reg} (hp : p ∈ t.transfers args link) :
    t.Nameable s p.2 := by
  obtain h | ⟨h, heq⟩ := mem_transfers hp
  · exact hargs _ h
  · exact heq ▸ hlink h

omit hargs hlink in
theorem named_of_mem_used (ht : t.Apt base names) {r : Option Reg}
    (hr : r ∈ (t.transfers args link).map (·.1)) : r ∈ t.named names :=
  ht.passing r ((t.transfers_sublist args link).subset hr)

theorem modest_placeArgs (ht : t.Apt base names) :
    ∀ i ∈ (t.placeArgs args link).1, t.Modest (t.named names) 4 s i := by
  intro i hi
  obtain ⟨text, rfl⟩ | ⟨r, hr, rfl⟩ | ⟨p, hp, rfl⟩ := mem_placeArgs hi
  · exact ⟨[], by simp, nofun⟩
  · exact ⟨[r], by simp, forall_mem_singleton.mpr (.inl ⟨hargs r hr, by simp⟩)⟩
  · refine ⟨[p.2], by simp, ?_⟩
    show ∀ r ∈ [p.2] ++ [p.1], _
    simp only [singleton_append, forall_mem_cons, not_mem_nil, false_implies,
      implies_true, and_true]
    exact ⟨.inl ⟨nameable_of_mem_transfers hargs hlink hp, by simp⟩,
      .inr (named_of_mem_used ht (mem_map_of_mem hp))⟩

/-- A call with its arguments placed before and dropped behind is one stretch. -/
theorem Filled.selected_call (ht : t.Apt base names) {x : Expr} {c : Code}
    (h : Filled t names s (.expr x) (t.placeArgs args link).2 c) :
    t.Selected s [] [] ((t.placeArgs args link).1 ++ c ++ t.removeArgs args) := by
  have hused : (t.placeArgs args link).2 = (t.transfers args link).map (·.1) := by
    rw [Target.placeArgs_eq]
  have hplace := modest_placeArgs hargs hlink ht
  have hremove : ∀ i ∈ t.removeArgs args, t.Modest (t.named names) 4 s i := fun i hi => by
    obtain ⟨text, rfl⟩ := mem_removeArgs hi
    exact ⟨[], by simp, nofun⟩
  have hmodest : ∀ i ∈ (t.placeArgs args link).1 ++ c ++ t.removeArgs args, t.Modest (t.named names) 4 s i := by
    rw [forall_mem_append, forall_mem_append]
    exact ⟨⟨hplace, h.modest⟩, hremove⟩
  have hnone : ∀ i ∈ c, i.label = none := filterMap_eq_nil_iff.mp h.labels
  have hstraight : Straight ((t.placeArgs args link).1 ++ c ++ t.removeArgs args) := by
    unfold Straight
    rw [forall_mem_append, forall_mem_append]
    refine ⟨⟨straight_placeArgs, fun i hi => ⟨hnone i hi, ?_⟩⟩, fun i hi => ?_⟩
    · exact eq_nil_iff_forall_not_mem.mpr fun l hl => not_mem_nil (h.dests i hi l hl)
    · obtain ⟨text, rfl⟩ := mem_removeArgs hi
      exact ⟨rfl, rfl⟩
  refine ⟨Stretch.stretches ⟨ht.roomy_of_modest (fun _ => ht.mem_regs_of_named) ht.room_named hmodest,
    fun r hr hneeds => ?_, fun i hi => (hstraight i (mem_of_mem_tail hi)).1⟩,
    Target.nameable_or_mem_regs (fun _ => ht.mem_regs_of_named) hmodest, ?_, ?_, ?_⟩
  · rw [needs_append, needs_append] at hneeds
    obtain (hneeds | ⟨hwrites, hneeds⟩) | ⟨-, hneeds⟩ := hneeds
    · obtain ⟨i, hi, hread⟩ := hneeds.exists_reads
      obtain ⟨text, rfl⟩ | ⟨a, ha, rfl⟩ | ⟨p, hp, rfl⟩ := mem_placeArgs hi
      · cases hread
      · exact ht.not_mem_regs (mem_singleton.mp hread ▸ hargs a ha) hr
      · exact ht.not_mem_regs
          (mem_singleton.mp hread ▸ nameable_of_mem_transfers hargs hlink hp) hr
    · -- what the call reads was written when the arguments were placed
      have hmem := h.needs r hr hneeds
      rw [hused] at hmem
      obtain ⟨p, hp, rfl⟩ := mem_map.mp hmem
      refine hwrites (t.dialect.move p.1 p.2) ?_ (mem_singleton_self _)
      rw [Target.placeArgs_eq]
      exact mem_append_right _ (mem_map_of_mem hp)
    · obtain ⟨i, hi, hread⟩ := hneeds.exists_reads
      obtain ⟨text, rfl⟩ := mem_removeArgs hi
      cases hread
  · exact filterMap_eq_nil_iff.mpr fun i hi => (hstraight i hi).1
  · intro i hi l hl
    rw [(hstraight i hi).2] at hl
    cases hl
  · exact fun i hi hl => absurd (hstraight i hi).1 hl

end Call

/-! ### Expressions -/

theorem head_of_selectable {x : Expr} (hx : x.Selectable P L) :
    (Node.expr x).head ≠ .none ∧ (Node.expr x).head.isKnown = true := by
  cases x with
  | missing | eseq => cases hx
  | bin op l r pos => exact ⟨nofun, hx.1⟩
  | int | addr | temp | mem | call => exact ⟨nofun, rfl⟩

/-- Filling in appends code. -/
theorem fill_emits {x : Node} {tpl : Template} {leaves : List Leaf} {dst : Option Reg}
    {used : List (Option Reg)} (ht : t.Apt base names)
    (hready : Ready t names st.supply x tpl leaves dst used) :
    Ends (fill x tpl leaves dst used tpl.recipes) st (fun _ st' => st'.supply = st.supply ∧
      ∃ c, st'.code = st.code ++ c ∧ Filled t names st.supply x used c) fun _ => False := by
  obtain ⟨c, hc, hfill⟩ := fill_isInstance hready.tidy hready.head hready.leaves dst used
  exact ends_of_eq (hfill st) ⟨rfl, c, rfl, hready.filled ht hc⟩

theorem Leaf.Holds.settled {kind : LeafKind} {l : Leaf}
    (h : Leaf.Holds P kind l) (hP : ∀ r, P r → r.isSome = true) : Leaf.Settled P kind l := by
  refine Leaf.settled_of_suits h.1 h.2.1 fun r hr => ?_
  cases l with
  | temp u =>
    rw [mem_singleton.mp hr]
    exact ⟨hP u (h.2.2 u rfl), h.2.2 u rfl⟩
  | int | addr => cases hr
  | glue e => exact absurd rfl (h.2.1 e)

theorem Matched.ready {s : Supply} {x : Node} {tpl : Template} {leaves : List Leaf}
    {dst : Option Reg} {used : List (Option Reg)} (ht : t.Apt base names)
    (h : Matched t (t.Nameable s) (t.Nameable s) x tpl leaves dst)
    (hused : ∀ r ∈ used, r ∈ t.named names) : Ready t names s x tpl leaves dst used := by
  obtain ⟨b, hfind, -⟩ := h.found
  obtain ⟨hmem, hhead, -⟩ := Catalog.of_find? hfind
  exact ⟨ht.tidy tpl hmem, hhead, h.leaves.imp fun k l hl => hl.settled fun r hr => hr.isSome, h.dst,
    hused⟩

/-- Code is selected for every expression. -/
theorem apt_weaves (ht : t.Apt base names) (L : Option Label → Prop) :
    Weaves t names base (fun _ => False) (fun s x => x.Selectable (t.Nameable s) L) t.Nameable
      t.Nameable (fun s x => Filled t names s (.expr x)) fun s => t.Selected s [] [] where
  reads := ht.keeps (.refl _)
  writes := ht.keeps (.refl _)
  joins := ⟨fun _ => .nil, fun hs h => h.mono hs, .append⟩
  mono hs hx := hx.mono (fun r hr => hr.mono hs) fun _ => id
  part := Expr.Selectable.of_mem_parts
  arg hx he := Expr.allSelectable_iff.mp hx.2.1 _ he
  link hx := hx.2.2
  temp hx := hx
  eseq hx := hx
  find hx := by
    obtain ⟨hhead, hknown⟩ := head_of_selectable hx
    exact find_ends (k := t.kit) hknown (ht.covers.find?_expr hhead hknown) _
  fill hm hused := fill_emits ht (hm.ready ht hused)
  passing := ht.passing
  plain h := h.selected ht
  call hargs hlink h := h.selected_call hargs hlink ht

/-! ### Statements -/

theorem head_of_selectable_stmt {x : Stmt} (hx : x.Selectable P L) :
    (∃ e, x = .eval e) ∨ (Node.stmt x).head ≠ .none ∧ (Node.stmt x).head.isKnown = true ∧
      ∀ d s, x = .move d s → d.isPlace = true := by
  cases x with
  | missing | seq => cases hx
  | eval e => exact .inl ⟨e, rfl⟩
  | move d s =>
    refine .inr ⟨nofun, rfl, ?_⟩
    rintro _ _ ⟨⟩
    cases d with
    | temp | mem => rfl
    | missing | int | addr | bin | call | eseq => cases hx
  | jump | place => exact .inr ⟨nofun, rfl, nofun⟩
  | cjump => exact .inr ⟨nofun, hx.1, nofun⟩

/-- Code is selected for every statement. -/
theorem selectStmt_selects (ht : t.Apt base names) (x : Stmt) (st : State) (hs : base.Grows st.supply)
    (hx : x.Selectable (t.Nameable st.supply) L) :
    Ends (selectStmt t.kit x) st
      (fun _ => Extends (fun s => t.Selected s (Node.stmt x).placed?.toList x.dests) st)
      fun _ => False := by
  have H := apt_weaves ht L
  obtain ⟨e, rfl⟩ | ⟨hhead, hknown, hplace⟩ := head_of_selectable_stmt hx
  · rw [selectStmt]
    exact H.expr e none st hs hx (by simp)
  · have hnode : selectStmt t.kit x = selectNode t.kit x := by
      cases x with
      | missing | eval | seq => exact absurd rfl hhead
      | move | jump | cjump | place => rw [selectStmt]
    rw [hnode]
    refine H.node (fun hs hc hc' => (hc.mono hs).append hc') hs hx.of_mem_exprs
      (find_ends (k := t.kit) hknown (ht.covers.find?_stmt hhead hknown hplace) st)
      fun tpl leaves st' _ hm => (fill_emits ht (hm.ready ht (forall_mem_nil _))).imp ?_
    rintro - st'' ⟨hsupply, c, hcode, hfilled⟩
    exact ⟨hsupply, c, hcode, hfilled.selected ht⟩

/-- Code is selected for statements one after the other. -/
theorem selectStmts_selects (ht : t.Apt base names) (xs : List Stmt) (st : State)
    (hs : base.Grows st.supply) (hxs : ∀ x ∈ xs, x.Selectable (t.Nameable st.supply) L) :
    Ends (selectStmts t.kit xs) st
      (fun _ => Extends (fun s => t.Selected s (xs.filterMap fun x => (Node.stmt x).placed?)
        (xs.flatMap Stmt.dests)) st) fun _ => False := by
  induction xs generalizing st with
  | nil =>
    rw [selectStmts]
    exact ends_pure.mpr (.of_same (apt_weaves ht L).joins rfl rfl)
  | cons x xs ih =>
    rw [forall_mem_cons] at hxs
    rw [selectStmts]
    refine (selectStmt_selects ht x st hs hxs.1).bind ?_
    intro _ st₁ h₁
    refine (ih st₁ (hs.trans h₁.grows) fun y hy =>
      (hxs.2 y hy).mono (fun r hr => hr.mono h₁.grows) fun _ => id).imp ?_
    intro _ st₂ h₂
    have hlabels : (x :: xs).filterMap (fun x => (Node.stmt x).placed?) =
        (Node.stmt x).placed?.toList ++ xs.filterMap fun x => (Node.stmt x).placed? := by
      cases h : (Node.stmt x).placed? <;> simp [h]
    rw [hlabels]
    exact h₁.append h₂ fun hc hc' => (hc.mono h₂.grows).append hc'

/-! ### Copies -/

/-- What matches a copy is a template for copies, with the two registers for its leaves. -/
theorem bind_of_find?_copy {tpl : Template} {b : Binding} {d q : Option Reg}
    (h : t.catalog.find? (.stmt (.move (.temp d) (.temp q))) = some (tpl, b)) :
    tpl ∈ t.catalog.templates ∧ tpl.pattern.head = (Node.stmt (.move (.temp d) (.temp q))).head ∧
      tpl.pattern.isCopy = true ∧ tpl.pattern.leafKinds = [.temp, .temp] ∧ b.leaves = [.temp d, .temp q] := by
  obtain ⟨hmem, hhead, hb⟩ := Catalog.of_find? h
  refine ⟨hmem, hhead, ?_⟩
  rcases hp : tpl.pattern with p | p
  · rw [hp] at hb
    cases hb
  · rw [hp] at hb
    cases p with
    | missing | eval | jump | cjump | seq | place => cases hb
    | move dst src =>
      cases dst with
      | missing | int | addr | bin | mem | call | eseq => cases hb
      | temp r =>
        obtain ⟨c, hc, rfl⟩ := Option.map_eq_some_iff.mp hb
        cases src with
        | missing | int | addr | bin | mem | call | eseq => cases hc
        | temp r' =>
          cases hc
          exact ⟨rfl, rfl, rfl⟩

/-- Registers stay as they are. -/
theorem selectLeaves_temps (k : Kit) (d q : Option Reg) :
    selectLeaves k [.temp d, .temp q] = pure [.temp d, .temp q] := by
  have hcons (r : Option Reg) (ls : List Leaf) : selectLeaves k (.temp r :: ls) = (do
      let ls ← selectLeaves k ls
      return .temp r :: ls) := by
    rw [selectLeaves]
    simp
  rw [hcons, hcons, selectLeaves, pure_bind, pure_bind]

end Selection

end Codegen
