import Codegen.Allocation
import Codegen.Proofs.Coloring.Change
import Codegen.Proofs.Liveness

/-!
# The graph of some code

The graph that is built has an edge just where the liveness of the code asks for one (`Built`),
machine registers have their places in the catalog for colors (`Paints`), and the nodes are sorted
such that the steps can begin (`Classified.tidy`).
-/

namespace Codegen

open List

namespace Liveness

variable {l : Liveness} {i s d : Nat}

/-- All numbers that a liveness mentions are numbers of registers. -/
structure Bounded (l : Liveness) : Prop where
  uses : ∀ {i n}, n ∈ (l.refsOf i).uses → n < l.regs.size
  defs : ∀ {i n}, n ∈ (l.refsOf i).defs → n < l.regs.size
  after : ∀ {i n}, (l.after i).contains n = true → n < l.regs.size

theorem Names.lt {n : Nat} {r : Option Reg} (h : l.Names n r) : n < l.regs.size :=
  (Array.getElem?_eq_some_iff.mp h).1

theorem names_reg {n : Nat} (h : n < l.regs.size) : l.Names n (l.reg n) := by
  simp [Names, reg, Array.getD_eq_getD_getElem?, h]

theorem Names.reg_eq {n : Nat} {r : Option Reg} (h : l.Names n r) : l.reg n = r := by
  unfold Names at h
  simp [reg, Array.getD_eq_getD_getElem?, h]

theorem refsOf_of_le (h : l.refs.size ≤ i) : l.refsOf i = default := by
  rw [refsOf, Array.getD_eq_getD_getElem?, Array.getElem?_eq_none h, Option.getD_none]

theorem Describes.bounded {code : Code} {ignore : Option Reg} (h : l.Describes code ignore) :
    l.Bounded := by
  have hrefs : ∀ {i n}, n ∈ (l.refsOf i).uses ∨ n ∈ (l.refsOf i).defs → n < l.regs.size := by
    intro i n hn
    by_cases hi : i < code.length
    · have hx := h.refs (getElem?_eq_getElem hi)
      rcases hn with hn | hn
      · obtain ⟨r, -, -, hr⟩ := (hx.mem_uses n).mp hn
        exact hr.lt
      · obtain ⟨r, -, -, hr⟩ := (hx.mem_defs n).mp hn
        exact hr.lt
    · rw [refsOf_of_le (by rw [h.size_refs]; omega)] at hn
      rcases hn with hn | hn <;> cases hn
  refine ⟨fun hn => hrefs (Or.inl hn), fun hn => hrefs (Or.inr hn), fun {i n} hn => ?_⟩
  obtain ⟨r, hr, -⟩ := (h.after i n).mp hn
  exact hr.lt

theorem movePair?_eq_some : l.movePair? i = some (s, d) ↔
    (l.refsOf i).isMove = true ∧ (l.refsOf i).uses = [s] ∧ (l.refsOf i).defs = [d] ∧ s ≠ d := by
  unfold movePair?
  constructor
  · intro h
    split at h
    · rename_i u e h1 h2 h3
      split at h
      · cases h
      · rename_i hne
        cases h
        exact ⟨h1, h2, h3, hne⟩
    · cases h
  · rintro ⟨h1, h2, h3, h4⟩
    rw [h1, h2, h3]
    exact if_neg h4

theorem lt_of_movePair? (h : l.movePair? i = some (s, d)) : i < l.refs.size := by
  by_contra hi
  have := (movePair?_eq_some.mp h).1
  rw [refsOf_of_le (by omega)] at this
  cases this

theorem Bounded.movePair? (hb : l.Bounded) (h : l.movePair? i = some (s, d)) :
    s < l.regs.size ∧ d < l.regs.size := by
  obtain ⟨-, h2, h3, -⟩ := movePair?_eq_some.mp h
  exact ⟨hb.uses (i := i) (by rw [h2]; simp), hb.defs (i := i) (by rw [h3]; simp)⟩

theorem index?_eq_some (hinj : ∀ {i j : Nat} {r : Option Reg}, l.Names i r → l.Names j r → i = j)
    {r : Option Reg} {n : Nat} : l.index? r = some n ↔ l.Names n r :=
  Numbering.index?_eq_some (n := { regs := l.regs }) fun _ _ _ hi hj => hinj hi hj

/-- Register `d` is written by instruction `i` while `v` is live, and not as a copy of it. -/
def Conflict (l : Liveness) (i d v : Nat) : Prop :=
  d ∈ (l.refsOf i).defs ∧ (l.after i).contains v = true ∧ some v ≠ Coloring.copied l i ∧ v ≠ d

end Liveness

namespace Coloring

variable {c c' : Coloring} {a b i m n x y : Nat}

/-! ### Before anything is built -/

/-- There are machine registers at most. -/
structure Blank (c : Coloring) : Prop where
  shape : c.Shape
  node : ∀ n, c.node n = .unprocessed ∨ c.node n = .precolored
  move : ∀ m, c.move m = .none
  interferes : ∀ a b, c.interferes a b = false
  neighboursOf : ∀ n, c.neighboursOf n = []
  degreeOf : ∀ n, c.degreeOf n = 0
  relatedOf : ∀ n, c.relatedOf n = []

theorem getD_replicate {α : Type} (n i : Nat) (x : α) : (Array.replicate n x).getD i x = x := by
  rw [Array.getD_eq_getD_getElem?, Array.getElem?_replicate]
  split <;> rfl

theorem node_start (l : Liveness) (k n : Nat) : (start l k).node n = .unprocessed := getD_replicate ..

theorem colorOf_start (l : Liveness) (k n : Nat) : (start l k).colorOf n = none := getD_replicate ..

theorem blank_start (l : Liveness) (k : Nat) : (start l k).Blank := by
  refine ⟨⟨Worklist.wf_ofSize _, Worklist.wf_ofSize _, ?_, ?_, ?_, ?_, ?_, ?_⟩,
    fun n => Or.inl (node_start l k n), fun m => getD_replicate _ m _, fun a b => ?_,
    fun n => getD_replicate _ n _, fun n => getD_replicate _ n _, fun n => getD_replicate _ n _⟩
  · simp [start, size]
  · simp [start, size]
  · simp [start, size]
  · simp [start, size]
  · simp [start, size]
  · simp [start, size]
  · unfold interferes adjOf start
    rw [Array.getD_eq_getD_getElem?, Array.getElem?_replicate]
    split
    · exact Bitmap.contains_withCapacity _ _
    · exact Bitmap.contains_empty _

/-! ### The colors of machine registers -/

/-- Machine registers have their places in the list of registers for colors. -/
structure Paints (regs : List (Option Reg)) (c : Coloring) : Prop where
  colorOf : ∀ {n color}, c.colorOf n = some color ↔
    ∃ r, regs[color]? = some r ∧ c.live.Names n r
  node : ∀ n, c.node n = .precolored ↔ ∃ color, c.colorOf n = some color

theorem Paints.precolored_iff {regs : List (Option Reg)} {r : Option Reg} (h : Paints regs c)
    (hn : c.live.Names n r) : c.node n = .precolored ↔ r ∈ regs := by
  rw [h.node, mem_iff_getElem?]
  refine exists_congr fun color => h.colorOf.trans ⟨?_, fun hr => ⟨r, hr, hn⟩⟩
  rintro ⟨r', hr', hn'⟩
  rwa [← hn.reg_eq, hn'.reg_eq]

section Precolor

variable (color : Nat) (h : c.Shape) (hn : n < c.size)
include h hn

theorem Shape.node_precolor :
    (c.precolor n color).node x = if x = n then .precolored else c.node x :=
  Worklist.get_enter (h.nodes.size_state ▸ hn)

theorem Shape.colorOf_precolor :
    (c.precolor n color).colorOf x = if x = n then some color else c.colorOf x := by
  have hn' : n < c.color.size := h.color ▸ hn
  simp only [Coloring.colorOf, precolor, Array.getD_eq_getD_getElem?, Array.getElem?_setIfInBounds]
  by_cases hx : n = x
  · subst hx
    simp [hn']
  · simp [hx, Ne.symm hx]

theorem Shape.precolor (hu : c.node n = .unprocessed) : (c.precolor n color).Shape :=
  { h with
    nodes := h.nodes.enter hn hu (by decide)
    color := Array.size_setIfInBounds.trans h.color }

end Precolor

theorem Blank.precolor (h : c.Blank) (color : Nat) (hn : n < c.size) (hu : c.node n = .unprocessed) :
    (c.precolor n color).Blank :=
  { h with
    shape := h.shape.precolor color hn hu
    node := fun x => by
      rw [h.shape.node_precolor color hn]
      split
      · exact Or.inr rfl
      · exact h.node x }

/-- The nodes of the list were given their colors, and nothing else was done to the first coloring. -/
structure Painted (list : List (Nat × Nat)) (c₀ c : Coloring) : Prop where
  live : c.live = c₀.live
  k : c.k = c₀.k
  blank : c.Blank
  node : ∀ n, c.node n = .precolored ↔ ∃ color, c.colorOf n = some color
  colorOf : ∀ {n color}, c.colorOf n = some color ↔ (n, color) ∈ list

theorem painted_start (l : Liveness) (k : Nat) (temporaries : Bitmap) :
    Painted [] { start l k with temporaries } { start l k with temporaries } := by
  have hblank := blank_start l k
  refine ⟨rfl, rfl, { hblank with shape := { hblank.shape with } }, fun n => ?_,
    fun {n color} => ?_⟩
  · show (start l k).node n = _ ↔ ∃ color, (start l k).colorOf n = _
    simp [node_start, colorOf_start]
  · show (start l k).colorOf n = _ ↔ _
    simp [colorOf_start]

/-- One more node. -/
theorem Painted.precolor {list : List (Nat × Nat)} {c₀ : Coloring} (h : Painted list c₀ c)
    {p : Nat × Nat} (hlt : p.1 < c.size) (hnew : p.1 ∉ list.map Prod.fst) :
    Painted (list ++ [p]) c₀ (c.precolor p.1 p.2) := by
  have hu : c.node p.1 = .unprocessed := (h.blank.node p.1).resolve_right fun hp => by
    obtain ⟨color, hc⟩ := (h.node p.1).mp hp
    exact hnew (mem_map.mpr ⟨_, h.colorOf.mp hc, rfl⟩)
  have hcolor := fun x => h.blank.shape.colorOf_precolor (x := x) p.2 hlt
  refine ⟨h.live, h.k, h.blank.precolor p.2 hlt hu, fun x => ?_, fun {x color} => ?_⟩
  · rw [h.blank.shape.node_precolor p.2 hlt, hcolor]
    by_cases hx : x = p.1
    · simp [hx]
    · rw [if_neg hx, if_neg hx]
      exact h.node x
  · rw [hcolor, mem_append, mem_singleton]
    by_cases hx : x = p.1
    · have hout : (x, color) ∉ list := fun hmem => hnew (mem_map.mpr ⟨_, hmem, hx⟩)
      rw [if_pos hx, or_iff_right hout, Prod.ext_iff]
      simp [hx, eq_comm]
    · rw [if_neg hx, h.colorOf, or_iff_left]
      exact fun heq => hx (congrArg Prod.fst heq)

/-- One node after the other, none of them twice. -/
theorem Painted.precolorEach {c₀ : Coloring} (list : List (Nat × Nat)) {done : List (Nat × Nat)}
    (h : Painted done c₀ c) (hnd : ((done ++ list).map Prod.fst).Nodup)
    (hlt : ∀ p ∈ list, p.1 < c₀.size) :
    Painted (done ++ list) c₀ (list.foldl (fun c q => c.precolor q.1 q.2) c) := by
  induction list generalizing done c with
  | nil => rwa [append_nil]
  | cons p list ih =>
    obtain ⟨hp, hlt'⟩ := forall_mem_cons.mp hlt
    have hnew : p.1 ∉ done.map Prod.fst := by
      rw [map_append, map_cons, nodup_append] at hnd
      exact fun hmem => hnd.2.2 p.1 hmem p.1 mem_cons_self rfl
    have hsize : c.size = c₀.size := congrArg (·.regs.size) h.live
    rw [append_cons] at hnd ⊢
    exact ih (h.precolor (hsize.symm ▸ hp) hnew) hnd hlt'

/-- The numbers of the machine registers that occur, with their colors. -/
def occurring (cat : Catalog) (l : Liveness) : List (Nat × Nat) :=
  cat.regs.zipIdx.filterMap fun p => (l.index? p.1).map (·, p.2)

theorem precolorAll_eq (cat : Catalog) (c : Coloring) : Allocation.precolorAll cat c =
    (occurring cat c.live).foldl (fun c q => c.precolor q.1 q.2) c := by
  unfold Allocation.precolorAll occurring
  induction cat.regs.zipIdx generalizing c with
  | nil => rfl
  | cons p rest ih =>
    rw [foldl_cons, ih, filterMap_cons]
    dsimp only
    cases c.live.index? p.1 <;> rfl

theorem temporaries_precolorAll (cat : Catalog) (c : Coloring) :
    (Allocation.precolorAll cat c).temporaries = c.temporaries := by
  rw [precolorAll_eq]
  generalize occurring cat c.live = list
  induction list generalizing c with
  | nil => rfl
  | cons p list ih => exact ih _

section Occurring

variable {l : Liveness} {cat : Catalog}
  (hinj : ∀ {i j : Nat} {r : Option Reg}, l.Names i r → l.Names j r → i = j)
include hinj

theorem mem_occurring {color : Nat} : (n, color) ∈ occurring cat l ↔
    ∃ r, cat.regs[color]? = some r ∧ l.Names n r := by
  simp [occurring, mem_zipIdx_iff_getElem?, Liveness.index?_eq_some hinj]

theorem nodup_occurring (hnd : cat.regs.Nodup) : ((occurring cat l).map Prod.fst).Nodup := by
  have hfst : (occurring cat l).map Prod.fst = cat.regs.filterMap l.index? := by
    rw [← zipIdx_map_fst 0 cat.regs, filterMap_map, occurring, map_filterMap]
    refine filterMap_congr fun p _ => ?_
    cases h : l.index? p.1 <;> simp [h]
  rw [hfst]
  refine hnd.filterMap fun r r' n hr hr' => ?_
  rw [← ((Liveness.index?_eq_some hinj).mp hr).reg_eq, ((Liveness.index?_eq_some hinj).mp hr').reg_eq]

/-- Precoloring gives the machine registers of the code their colors, and no other node. -/
theorem painted_precolorAll (hnd : cat.regs.Nodup) (k : Nat) :
    Painted (occurring cat l) (start l k) (Allocation.precolorAll cat (start l k)) := by
  rw [precolorAll_eq]
  refine (painted_start l k _).precolorEach _ (nodup_occurring hinj hnd) ?_
  rintro ⟨n, color⟩ hp
  obtain ⟨r, -, hr⟩ := (mem_occurring hinj).mp hp
  exact hr.lt

theorem paints_precolorAll (hnd : cat.regs.Nodup) (k : Nat) :
    (Allocation.precolorAll cat (start l k)).Paints cat.regs := by
  have h := painted_precolorAll hinj hnd k
  refine ⟨fun {n color} => ?_, h.node⟩
  rw [h.colorOf, mem_occurring hinj, h.live]
  rfl

end Occurring

theorem Paints.congr {regs : List (Option Reg)} (h : Paints regs c) (hlive : c'.live = c.live)
    (hcolor : c'.color = c.color)
    (hnode : ∀ n, c'.node n = .precolored ↔ c.node n = .precolored) : Paints regs c' := by
  have hc : ∀ n, c'.colorOf n = c.colorOf n := by
    intro n
    unfold Coloring.colorOf
    rw [hcolor]
  refine ⟨fun {n color} => ?_, fun n => ?_⟩
  · rw [hc, h.colorOf, hlive]
  · rw [hnode, h.node]
    simp only [hc]

/-- Different machine registers have different colors. -/
theorem Paints.color_ne {regs : List (Option Reg)} (h : Paints regs c)
    (hinj : ∀ {i j : Nat} {r : Option Reg}, c.live.Names i r → c.live.Names j r → i = j)
    {color : Nat} (ha : c.colorOf a = some color) (hb : c.colorOf b = some color) : a = b := by
  obtain ⟨r, hr, har⟩ := h.colorOf.mp ha
  obtain ⟨r', hr', hbr⟩ := h.colorOf.mp hb
  rw [hr] at hr'
  cases hr'
  exact hinj har hbr

/-! ### Drawing edges -/

/-- A graph whose degrees are all right while nothing was taken out. -/
structure Even (c : Coloring) : Prop where
  shape : c.Shape
  graph : c.IsGraph
  degree : ∀ {n}, n < c.size → c.node n ≠ .precolored →
    c.degreeOf n = ((c.neighboursOf n).length : Int)

/-- Edges are added where the relation asks for them. -/
structure Draws (edge : Nat → Nat → Prop) (c c' : Coloring) : Prop where
  rest : SameRest c c'
  even : c'.Even
  interferes : ∀ {x y}, c'.interferes x y = true ↔
    c.interferes x y = true ∨ edge x y ∨ edge y x

theorem Even.connect (h : c.Even) (ha : a < c.size) (hb : b < c.size) :
    Draws (fun x y => x = a ∧ y = b ∧ x ≠ y) c (c.connect a b) := by
  by_cases hab : a = b
  · subst hab
    rw [show c.connect a a = c by simp [Coloring.connect]]
    refine ⟨SameRest.refl c, h, fun {x y} => ?_⟩
    constructor
    · exact Or.inl
    · rintro (h | ⟨rfl, rfl, hne⟩ | ⟨rfl, rfl, hne⟩)
      · exact h
      · exact absurd rfl hne
      · exact absurd rfl hne
  have hr := sameRest_connect c a b
  refine ⟨hr, ⟨h.shape.connect a b, h.graph.connect h.shape ha hb hab, fun {n} hn hp => ?_⟩,
    fun {x y} => ?_⟩
  · rw [hr.size] at hn
    rw [hr.node] at hp
    have hd := h.degree hn hp
    by_cases hi : c.interferes a b = true
    · rw [connect_of_interferes hi]
      exact hd
    have hi' : c.interferes a b = false := by simpa using hi
    rw [h.shape.degreeOf_connect ha hb hab hi', h.shape.neighboursOf_connect ha hb hab hi']
    split
    · simp [hd]
    · split
      · simp [hd]
      · exact hd
  · rw [h.graph.interferes_connect h.shape ha hb hab]
    constructor
    · rintro (h | ⟨rfl, rfl⟩ | ⟨rfl, rfl⟩)
      · exact Or.inl h
      · exact Or.inr (Or.inl ⟨rfl, rfl, hab⟩)
      · exact Or.inr (Or.inr ⟨rfl, rfl, hab⟩)
    · rintro (h | ⟨rfl, rfl, -⟩ | ⟨rfl, rfl, -⟩)
      · exact Or.inl h
      · exact Or.inr (Or.inl ⟨rfl, rfl⟩)
      · exact Or.inr (Or.inr ⟨rfl, rfl⟩)

theorem Even.foldl {α : Type} {f : Coloring → α → Coloring} {edge : α → Nat → Nat → Prop}
    {p : α → Nat → Prop}
    (hf : ∀ {c a}, c.Even → p a c.size → Draws (edge a) c (f c a)) (list : List α) (h : c.Even)
    (hok : ∀ a ∈ list, p a c.size) :
    Draws (fun x y => ∃ a ∈ list, edge a x y) c (list.foldl f c) := by
  induction list generalizing c with
  | nil =>
    refine ⟨SameRest.refl c, h, fun {x y} => ?_⟩
    simp
  | cons a rest ih =>
    have h1 := hf h (hok a mem_cons_self)
    have h2 := ih h1.even fun b hb => h1.rest.size.symm ▸ hok b (mem_cons_of_mem a hb)
    rw [foldl_cons]
    refine ⟨h1.rest.trans h2.rest, h2.even, fun {x y} => ?_⟩
    rw [h2.interferes, h1.interferes]
    simp only [mem_cons, exists_eq_or_imp]
    exact iff_of_eq (by ac_rfl)

/-- What one instruction adds to the graph. -/
theorem Even.drawAll (h : c.Even) (defs live : List Nat) (hd : ∀ d ∈ defs, d < c.size)
    (hl : ∀ v ∈ live, v < c.size) :
    Draws (fun x y => x ∈ defs ∧ y ∈ live ∧ y ≠ x) c
      (defs.foldl (fun c d => live.foldl (fun c v => c.connect d v) c) c) := by
  have hinner : ∀ {c d}, c.Even → (d < c.size ∧ ∀ v ∈ live, v < c.size) →
      Draws (fun x y => ∃ v ∈ live, x = d ∧ y = v ∧ x ≠ y) c
        (live.foldl (fun c v => c.connect d v) c) := by
    intro c d h hok
    exact Even.foldl (p := fun v n => d < n ∧ v < n) (fun h hok => h.connect hok.1 hok.2) live h
      fun v hv => ⟨hok.1, hok.2 v hv⟩
  have houter := Even.foldl (p := fun d n => d < n ∧ ∀ v ∈ live, v < n) hinner defs h
    fun d hd' => ⟨hd d hd', hl⟩
  refine ⟨houter.rest, houter.even, fun {x y} => ?_⟩
  have hiff : ∀ {x y}, (∃ d ∈ defs, ∃ v ∈ live, x = d ∧ y = v ∧ x ≠ y) ↔
      x ∈ defs ∧ y ∈ live ∧ y ≠ x := by
    intro x y
    constructor
    · rintro ⟨d, hd, v, hv, rfl, rfl, hne⟩
      exact ⟨hd, hv, hne.symm⟩
    · rintro ⟨hx, hy, hne⟩
      exact ⟨x, hx, y, hy, rfl, rfl, hne.symm⟩
  rw [houter.interferes, hiff, hiff]

/-! ### Building the graph -/

/-- The graph of the instructions before `i`. -/
structure Built (c₀ c : Coloring) (i : Nat) : Prop where
  even : c.Even
  live : c.live = c₀.live
  k : c.k = c₀.k
  nodes : c.nodes = c₀.nodes
  color : c.color = c₀.color
  temporaries : c.temporaries = c₀.temporaries
  move : ∀ m, c.move m = if m < i ∧ (c.live.movePair? m).isSome then .coalescable else .none
  relatedOf : ∀ n m, m ∈ c.relatedOf n ↔
    m < i ∧ ∃ s d, c.live.movePair? m = some (s, d) ∧ (n = s ∨ n = d)
  interferes : ∀ {x y}, c.interferes x y = true ↔
    ∃ j < i, c.live.Conflict j x y ∨ c.live.Conflict j y x

theorem Blank.even (h : c.Blank) : c.Even := by
  refine ⟨h.shape, ⟨?_, ?_, ?_, ?_, ?_⟩, ?_⟩
  · intro a b hab
    rw [h.interferes] at hab
    cases hab
  · intro a b hab
    rw [h.interferes] at hab
    cases hab
  · exact h.interferes _ _
  · intro a b _ _
    rw [h.neighboursOf, h.interferes]
    simp
  · intro a
    rw [h.neighboursOf]
    exact nodup_nil
  · intro n _ _
    rw [h.degreeOf, h.neighboursOf]
    rfl

theorem Blank.built (h : c.Blank) : Built c c 0 := by
  refine ⟨h.even, rfl, rfl, rfl, rfl, rfl, fun m => ?_, fun n m => ?_, fun {x y} => ?_⟩
  · simp [h.move]
  · simp [h.relatedOf]
  · simp [h.interferes]

/-- Noting a move changes nothing but moves. -/
theorem relate_spec (h : c.Shape) (hb : c.live.Bounded) (hm : c.move i = .none) :
    (c.relate i).Shape ∧
      c.relate i = { c with moves := (c.relate i).moves, related := (c.relate i).related } ∧
      (∀ m, (c.relate i).move m =
        if m = i ∧ (c.live.movePair? m).isSome then .coalescable else c.move m) ∧
      ∀ n m, m ∈ (c.relate i).relatedOf n ↔
        m ∈ c.relatedOf n ∨ m = i ∧ ∃ s d, c.live.movePair? m = some (s, d) ∧ (n = s ∨ n = d) := by
  unfold Coloring.relate
  cases hp : c.live.movePair? i with
  | none =>
    refine ⟨h, rfl, fun m => ?_, fun n m => ?_⟩
    · rw [if_neg]
      rintro ⟨rfl, hs⟩
      rw [hp] at hs
      cases hs
    · constructor
      · exact Or.inl
      · rintro (hmem | ⟨rfl, s, d, hs, -⟩)
        · exact hmem
        · rw [hp] at hs
          cases hs
  | some p =>
    obtain ⟨u, d⟩ := p
    dsimp only
    have hi := Liveness.lt_of_movePair? hp
    obtain ⟨hu, hd⟩ := hb.movePair? hp
    have hu' : u < c.related.size := h.related.symm ▸ hu
    have hd' : d < c.related.size := h.related.symm ▸ hd
    refine ⟨{ h with
      moves := h.moves.enter hi hm (by decide)
      related := Array.size_modify.trans (Array.size_modify.trans h.related) }, rfl, fun m => ?_,
      fun n m => ?_⟩
    · show (c.moves.enter i .coalescable).get m = _
      rw [Worklist.get_enter (h.moves.size_state ▸ hi)]
      by_cases hmi : m = i
      · subst hmi
        simp [hp]
      · simp [hmi]
        rfl
    · have hne : u ≠ d := (Liveness.movePair?_eq_some.mp hp).2.2.2
      have hrel : ((c.related.modify u (· ++ [i])).modify d (· ++ [i])).getD n [] =
          if n = u ∨ n = d then c.relatedOf n ++ [i] else c.relatedOf n := by
        rw [getD_modify, getD_modify, Array.size_modify]
        by_cases hnu : n = u
        · subst hnu
          simp [hu', Ne.symm hne, Coloring.relatedOf]
        · by_cases hnd : n = d
          · subst hnd
            simp [hd', hne, Coloring.relatedOf]
          · simp [hnu, hnd, Ne.symm hnu, Ne.symm hnd, Coloring.relatedOf]
      show m ∈ ((c.related.modify u (· ++ [i])).modify d (· ++ [i])).getD n [] ↔ _
      rw [hrel]
      constructor
      · split
        · rename_i hn
          intro hm'
          rcases mem_append.mp hm' with hm' | hm'
          · exact Or.inl hm'
          · rw [mem_singleton] at hm'
            exact Or.inr ⟨hm', u, d, hm' ▸ hp, hn⟩
        · exact Or.inl
      · rintro (hm' | ⟨rfl, s, e, hs, hn⟩)
        · split
          · exact mem_append_left _ hm'
          · exact hm'
        · rw [hp] at hs
          cases hs
          rw [if_pos hn]
          exact mem_append_right _ mem_cons_self

theorem Built.step {c₀ : Coloring} (h : Built c₀ c i) (hb : c.live.Bounded) :
    Built c₀ (c.buildAt i) (i + 1) := by
  obtain ⟨h1, h2, h3, h4⟩ := relate_spec h.even.shape hb (by simpa using h.move i)
  unfold Coloring.buildAt
  generalize c.relate i = c1 at *
  have hlive : c1.live = c.live := by rw [h2]
  have hsize : c1.size = c.size := by unfold size; rw [hlive]
  have hint : ∀ x y, c1.interferes x y = c.interferes x y := fun x y => by rw [h2]; rfl
  have heven : c1.Even := by
    refine ⟨h1, h.even.graph.congr hlive (by rw [h2]) (by rw [h2]) fun n => by rw [h2]; rfl, ?_⟩
    intro n hn hp
    rw [h2] at hn hp ⊢
    exact h.even.degree hn hp
  have hdraw := heven.drawAll (c1.live.refsOf i).defs
    ((c1.live.after i).toList.filter fun v => some v ≠ copied c1.live i)
    (fun d hd => hsize ▸ hb.defs (hlive ▸ hd))
    (fun v hv => hsize ▸ hb.after (by simpa [hlive] using (mem_filter.mp hv).1))
  dsimp only
  generalize (c1.live.refsOf i).defs.foldl _ c1 = c2 at *
  have hr := hdraw.rest
  have hlive2 : c2.live = c.live := hr.live.trans hlive
  refine ⟨hdraw.even, hlive2.trans h.live, ?_, ?_, ?_, ?_, fun m => ?_, fun n m => ?_,
    fun {x y} => ?_⟩
  · rw [hr.k, h2, ← h.k]
  · rw [hr.nodes, h2, ← h.nodes]
  · rw [hr.color, h2, ← h.color]
  · rw [hr.temporaries, h2, ← h.temporaries]
  · rw [hr.move, h3, h.move, hlive2]
    by_cases hmi : m = i
    · subst hmi
      simp
    · simp only [hmi, false_and, if_false]
      have : m < i + 1 ↔ m < i := by omega
      simp only [this]
  · have hrel : c2.relatedOf n = c1.relatedOf n := by
      unfold Coloring.relatedOf
      rw [hr.related]
    rw [hrel, h4, h.relatedOf, hlive2]
    constructor
    · rintro (⟨hm, hs⟩ | ⟨rfl, hs⟩)
      · exact ⟨by omega, hs⟩
      · exact ⟨by omega, hs⟩
    · rintro ⟨hm, hs⟩
      by_cases hmi : m = i
      · exact Or.inr ⟨hmi, hs⟩
      · exact Or.inl ⟨by omega, hs⟩
  · have hedge : ∀ {x y}, (x ∈ (c1.live.refsOf i).defs ∧
        y ∈ (c1.live.after i).toList.filter (fun v => some v ≠ copied c1.live i) ∧ y ≠ x) ↔
        c.live.Conflict i x y := by
      intro x y
      rw [hlive, mem_filter, Bitmap.mem_toList, decide_eq_true_eq]
      exact ⟨fun hh => ⟨hh.1, hh.2.1.1, hh.2.1.2, hh.2.2⟩,
        fun hh => ⟨hh.1, ⟨hh.2.1, hh.2.2.1⟩, hh.2.2.2⟩⟩
    rw [hdraw.interferes, hedge, hedge, hint, h.interferes, hlive2]
    constructor
    · rintro (⟨j, hj, hc⟩ | hc)
      · exact ⟨j, by omega, hc⟩
      · exact ⟨i, by omega, hc⟩
    · rintro ⟨j, hj, hc⟩
      by_cases hji : j = i
      · subst hji
        exact Or.inr hc
      · exact Or.inl ⟨j, by omega, hc⟩

theorem Blank.built_range (h : c.Blank) (hb : c.live.Bounded) (i : Nat) :
    Built c ((List.range i).foldl buildAt c) i := by
  induction i with
  | zero => exact h.built
  | succ i ih =>
    rw [range_succ, foldl_append, foldl_cons, foldl_nil]
    exact ih.step (ih.live.symm ▸ hb)

theorem Blank.build (h : c.Blank) (hb : c.live.Bounded) :
    Built c c.build c.live.refs.size := by
  have h1 := h.built_range hb c.live.refs.size
  exact { h1 with
    even := { h1.even with
      shape := { h1.even.shape with }
      graph := { h1.even.graph with } } }

/-! ### Sorting the nodes -/

theorem Shape.classifyNode (h : c.Shape) (hn : n < c.size)
    (hu : c.node n = .unprocessed ∨ c.node n = .precolored) :
    (c.classifyNode n).Shape ∧
      c.classifyNode n = { c with nodes := (c.classifyNode n).nodes } ∧
      ∀ x, (c.classifyNode n).node x =
        if x = n ∧ c.node x ≠ .precolored then c.firstState x else c.node x := by
  unfold Coloring.classifyNode
  by_cases hp : c.node n = .precolored
  · rw [if_pos (isMachine_iff.mpr hp)]
    refine ⟨h, rfl, fun x => ?_⟩
    rw [if_neg]
    rintro ⟨rfl, hx⟩
    exact hx hp
  · rw [if_neg fun hm => hp (isMachine_iff.mp hm)]
    have hst : c.firstState n ≠ .unprocessed := by
      unfold firstState
      split
      · decide
      · split <;> decide
    refine ⟨{ h with nodes := h.nodes.enter hn (hu.resolve_right hp) hst }, rfl, fun x => ?_⟩
    show (c.nodes.enter n _).get x = _
    rw [Worklist.get_enter (h.nodes.size_state ▸ hn)]
    by_cases hx : x = n
    · subst hx
      rw [if_pos rfl, if_pos ⟨rfl, hp⟩]
    · rw [if_neg hx, if_neg fun hh => hx hh.1]
      rfl

theorem classify_range (h : c.Shape) (hu : ∀ n, c.node n = .unprocessed ∨ c.node n = .precolored)
    (i : Nat) (hi : i ≤ c.size) :
    ((List.range i).foldl Coloring.classifyNode c).Shape ∧
      (List.range i).foldl Coloring.classifyNode c =
        { c with nodes := ((List.range i).foldl Coloring.classifyNode c).nodes } ∧
      ∀ x, ((List.range i).foldl Coloring.classifyNode c).node x =
        if x < i ∧ c.node x ≠ .precolored then c.firstState x else c.node x := by
  induction i with
  | zero =>
    refine ⟨h, rfl, fun x => ?_⟩
    simp
  | succ i ih =>
    obtain ⟨h1, h2, h3⟩ := ih (by omega)
    rw [range_succ, foldl_append, foldl_cons, foldl_nil]
    generalize (List.range i).foldl Coloring.classifyNode c = c1 at *
    have hfirst : ∀ x, c1.firstState x = c.firstState x := fun x => by rw [h2]; rfl
    have hu1 : c1.node i = .unprocessed ∨ c1.node i = .precolored := by
      rw [h3, if_neg (by omega)]
      exact hu i
    obtain ⟨g1, g2, g3⟩ := h1.classifyNode (n := i) (by rw [h2]; exact hi) hu1
    refine ⟨g1, by rw [g2, h2], fun x => ?_⟩
    rw [g3, hfirst]
    by_cases hx : x = i
    · subst hx
      rw [h3, if_neg (show ¬ (x < x ∧ _) by omega)]
      by_cases hp : c.node x = .precolored
      · simp [hp]
      · simp [hp]
    · rw [if_neg fun hh => hx hh.1, h3]
      have : x < i + 1 ↔ x < i := by omega
      simp only [this]

theorem firstState_cases (c : Coloring) (n : Nat) :
    c.firstState n = .spillable ∧ (c.k : Int) ≤ c.degreeOf n ∨
      c.firstState n = .removable ∧ c.degreeOf n < c.k ∧ c.relatedOf n = [] ∨
      c.firstState n = .freezeable ∧ c.degreeOf n < c.k ∧ c.relatedOf n ≠ [] := by
  unfold firstState
  by_cases hd : (c.k : Int) ≤ c.degreeOf n
  · exact Or.inl ⟨if_pos hd, hd⟩
  · rw [if_neg hd]
    by_cases he : (c.related.getD n []).isEmpty = true
    · exact Or.inr (Or.inl ⟨if_pos he, by omega, isEmpty_iff.mp he⟩)
    · exact Or.inr (Or.inr ⟨if_neg he, by omega, fun hh => he (isEmpty_iff.mpr hh)⟩)

/-- Every node is a machine register or in the state that it starts from. -/
structure Classified (c c' : Coloring) : Prop where
  shape : c'.Shape
  eq : c' = { c with nodes := c'.nodes }
  node : ∀ {n}, n < c.size → c'.node n = .precolored ∧ c.node n = .precolored ∨
    c'.node n = c.firstState n ∧ c.node n ≠ .precolored

theorem Built.classified {c₀ : Coloring} (h : Built c₀ c i) (hc₀ : c₀.Blank) :
    Classified c c.classify := by
  have hnodes : ∀ n, c.node n = .unprocessed ∨ c.node n = .precolored := by
    intro n
    have : c.node n = c₀.node n := by
      unfold Coloring.node
      rw [h.nodes]
    rw [this]
    exact hc₀.node n
  obtain ⟨h1, h2, h3⟩ := classify_range h.even.shape hnodes c.size (Nat.le_refl _)
  refine ⟨h1, h2, fun {n} hn => ?_⟩
  unfold classify
  rw [h3]
  by_cases hp : c.node n = .precolored
  · exact Or.inl ⟨by simp [hp], hp⟩
  · exact Or.inr ⟨if_pos ⟨hn, hp⟩, hp⟩

namespace Classified

variable (h : Classified c c')
include h

theorem live : c'.live = c.live := by rw [h.eq]

theorem size : c'.size = c.size := by
  unfold Coloring.size
  rw [h.live]

theorem k : c'.k = c.k := by rw [h.eq]

theorem move_eq (m : Nat) : c'.move m = c.move m := by
  rw [h.eq]
  rfl

theorem relatedOf_eq (n : Nat) : c'.relatedOf n = c.relatedOf n := by
  rw [h.eq]
  rfl

theorem degreeOf_eq (n : Nat) : c'.degreeOf n = c.degreeOf n := by
  rw [h.eq]
  rfl

theorem interferes_eq (a b : Nat) : c'.interferes a b = c.interferes a b := by
  rw [h.eq]
  rfl

/-- A node that is sorted at all has the degree and the moves that its list asks for. -/
theorem state_cases (hn : n < c.size) : c'.node n = .precolored ∧ c.node n = .precolored ∨
    c.node n ≠ .precolored ∧
      (c'.node n = .spillable ∧ (c.k : Int) ≤ c.degreeOf n ∨
        c'.node n = .removable ∧ c.degreeOf n < c.k ∧ c.relatedOf n = [] ∨
        c'.node n = .freezeable ∧ c.degreeOf n < c.k ∧ c.relatedOf n ≠ []) := by
  rcases h.node hn with hp | ⟨hs, hp⟩
  · exact Or.inl hp
  · rw [hs]
    exact Or.inr ⟨hp, firstState_cases c n⟩

theorem inGraph (n : Nat) : c'.InGraph n := by
  by_cases hn : n < c.size
  · rcases h.state_cases hn with ⟨hs, -⟩ | ⟨-, ⟨hs, -⟩ | ⟨hs, -⟩ | ⟨hs, -⟩⟩ <;>
      simp [InGraph, hs]
  · have hu : c'.node n = .unprocessed := by
      by_contra hu
      exact hn (h.size ▸ h.shape.lt_of_node hu)
    simp [InGraph, hu]

theorem find_eq (n : Nat) : c'.find n = n := find_of_ne (h.inGraph n).2

theorem adjacent_eq (n : Nat) : c'.adjacent n = c.neighboursOf n := by
  have hnb : c'.neighbours = c.neighbours := by rw [h.eq]
  unfold adjacent
  rw [hnb]
  exact filter_eq_self.mpr fun m _ => by simpa [InGraph] using h.inGraph m

theorem precolored_iff (hs : c.Shape) (n : Nat) :
    c'.node n = .precolored ↔ c.node n = .precolored := by
  by_cases hn : n < c.size
  · rcases h.state_cases hn with ⟨hs, hp⟩ | ⟨hp, ⟨hs, -⟩ | ⟨hs, -⟩ | ⟨hs, -⟩⟩ <;> simp [hs, hp]
  · constructor
    · intro hp
      exact absurd (h.size ▸ h.shape.lt_of_node (by rw [hp]; decide)) hn
    · intro hp
      exact absurd (hs.lt_of_node (by rw [hp]; decide)) hn

end Classified

/-- All moves of the code are open at first. -/
theorem Built.isOpen_iff {c₀ : Coloring} (h : Built c₀ c c.live.refs.size) :
    (c.move m).isOpen = true ↔ ∃ s d, c.live.movePair? m = some (s, d) := by
  rw [h.move]
  constructor
  · intro ho
    split at ho
    · rename_i hm
      obtain ⟨⟨s, d⟩, hp⟩ := Option.isSome_iff_exists.mp hm.2
      exact ⟨s, d, hp⟩
    · cases ho
  · rintro ⟨s, d, hp⟩
    rw [if_pos ⟨Liveness.lt_of_movePair? hp, by rw [hp]; rfl⟩]
    rfl

/-- The graph that the steps begin with is tidy. -/
theorem Classified.tidy {c₀ : Coloring} (hc : Classified c c') (h : Built c₀ c c.live.refs.size)
    (hb : c.live.Bounded) {H : Nat → Prop} : c'.Tidy { hard := H } := by
  have hlt : ∀ {n st}, st ≠ .unprocessed → c'.node n = st → n < c.size := fun hst hn =>
    hc.size ▸ hc.shape.lt_of_node (hn ▸ hst)
  have hopen : ∀ m, (c'.move m).isOpen = true ↔ ∃ s d, c.live.movePair? m = some (s, d) := by
    intro m
    rw [hc.move_eq]
    exact h.isOpen_iff
  refine ⟨hc.shape, ?_, ?_, ?_, ?_, ?_, ?_, ?_, ?_, ?_, ?_, ?_, ?_, ?_⟩
  · exact h.even.graph.congr hc.live (by rw [hc.eq]) (by rw [hc.eq])
      (hc.precolored_iff h.even.shape)
  · intro x hx
    exact ⟨0, x, .done (hc.inGraph x).2, hx, Nat.zero_le _⟩
  · intro m s d hp
    rw [hc.size]
    exact hb.movePair? (hc.live ▸ hp)
  · intro n hn
    rcases hc.state_cases (hc.size ▸ hn) with ⟨hs, -⟩ | ⟨-, ⟨hs, -⟩ | ⟨hs, -⟩ | ⟨hs, -⟩⟩ <;>
      rw [hs] <;> decide
  · intro m hm
    rw [hc.live]
    exact (hopen m).mp hm
  · intro m s d _ hp
    rw [hc.live] at hp
    rw [hc.find_eq, hc.find_eq, hc.relatedOf_eq, hc.relatedOf_eq, h.relatedOf, h.relatedOf]
    have hm := Liveness.lt_of_movePair? hp
    exact ⟨⟨hm, s, d, hp, Or.inl rfl⟩, ⟨hm, s, d, hp, Or.inr rfl⟩⟩
  · intro m n hm _
    rw [hc.relatedOf_eq, h.relatedOf] at hm
    obtain ⟨-, s, d, hp, hn⟩ := hm
    refine ⟨s, d, hc.live ▸ hp, ?_⟩
    rw [hc.find_eq, hc.find_eq]
    exact hn.imp Eq.symm Eq.symm
  · rintro n (hn | hn) -
    · rw [Bool.eq_false_iff]
      intro hr
      obtain ⟨m, hm, -⟩ := isMoveRelated_iff.mp hr
      rw [hc.relatedOf_eq] at hm
      rcases hc.state_cases (hlt (by decide) hn) with
        ⟨hs, -⟩ | ⟨-, ⟨hs, -⟩ | ⟨-, -, hs⟩ | ⟨hs, -⟩⟩ <;>
        first | (rw [hs] at hn; cases hn) | (rw [hs] at hm; cases hm)
    · exact absurd hn (hc.inGraph n).1
  · intro n hn hp _
    rw [hc.size] at hn
    rw [ne_eq, hc.precolored_iff h.even.shape] at hp
    rw [hc.adjacent_eq, hc.degreeOf_eq, h.even.degree hn hp]
    simp [Slack.excess]
  · intro n hn
    rw [hc.k, hc.degreeOf_eq]
    rcases hc.state_cases (hlt (by decide) hn) with
      ⟨hs, -⟩ | ⟨-, ⟨-, hs⟩ | ⟨hs, -⟩ | ⟨hs, -⟩⟩ <;> first | exact hs | rw [hs] at hn; cases hn
  · intro n hn _
    rw [hc.k, hc.degreeOf_eq]
    rcases hc.state_cases (hlt (by decide) hn) with
      ⟨hs, -⟩ | ⟨-, ⟨hs, -⟩ | ⟨hs, -⟩ | ⟨-, hs, -⟩⟩ <;> first | exact hs | rw [hs] at hn; cases hn
  · intro n hn _
    rcases hc.state_cases (hlt (by decide) hn) with
      ⟨hs, -⟩ | ⟨-, ⟨hs, -⟩ | ⟨hs, -⟩ | ⟨-, -, hs⟩⟩
    · rw [hs] at hn
      cases hn
    · rw [hs] at hn
      cases hn
    · rw [hs] at hn
      cases hn
    · obtain ⟨m, hm⟩ := exists_mem_of_ne_nil _ hs
      obtain ⟨-, s, d, hp, -⟩ := (h.relatedOf n m).mp hm
      exact isMoveRelated_iff.mpr ⟨m, hc.relatedOf_eq n ▸ hm, (hopen m).mpr ⟨s, d, hp⟩⟩
  · intro n hn _
    rw [hc.k, hc.degreeOf_eq]
    rcases hc.state_cases (hlt (by decide) hn) with
      ⟨hs, -⟩ | ⟨-, ⟨hs, -⟩ | ⟨-, hs, -⟩ | ⟨hs, -⟩⟩ <;>
      first | exact Or.inl hs | rw [hs] at hn; cases hn

end Coloring

end Codegen
