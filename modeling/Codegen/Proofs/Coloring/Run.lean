import Codegen.Proofs.Coloring.Assign

/-!
# Runs of the coloring

From the set-up for some code to the final colors: every step keeps the coloring tidy and interfering
nodes separate, so no two registers that are in use at the same time get one color
(`Ready.clash?_run`).
-/

namespace Codegen.Coloring

variable {c c' : Coloring} {regs : List (Option Reg)} {d i n v x y : Nat}

/-- A coloring that is set up for its code, in which just the machine registers have colors, whatever
these are. -/
structure Primed (c : Coloring) : Prop where
  blank : c.Blank
  bounded : c.live.Bounded
  machine : ∀ n, c.node n = .precolored ↔ ∃ color, c.colorOf n = some color

/-- A coloring that is set up for its code, with the places of the machine registers for colors. -/
structure Ready (regs : List (Option Reg)) (c : Coloring) : Prop extends Primed c where
  paints : c.Paints regs
  inj : ∀ {i j : Nat} {r : Option Reg}, c.live.Names i r → c.live.Names j r → i = j

/-- The coloring for some code, set up and precolored. -/
def ofCode (cat : Catalog) (k : Nat) (fp : Option Reg) (temps : List (Option Reg)) (code : Code)
    (g : Flow) : Coloring :=
  Allocation.markTemporaries temps (Allocation.precolorAll cat (start (.ofFlow g code fp) k))

theorem ready_ofCode {cat : Catalog} (hnd : cat.regs.Nodup) (k : Nat) (fp : Option Reg)
    (temps : List (Option Reg)) {code : Code} {g : Flow} (hg : Flow.ofCode code = .ok g) :
    Ready cat.regs (ofCode cat k fp temps code g) ∧
      (ofCode cat k fp temps code g).live.Describes code fp ∧
      (ofCode cat k fp temps code g).k = k := by
  have hl := Liveness.ofFlow_describes hg fp
  have h := painted_precolorAll hl.inj hnd k
  have hpaints := paints_precolorAll hl.inj hnd k
  have hlive : (ofCode cat k fp temps code g).live = .ofFlow g code fp := h.live
  refine ⟨⟨⟨{ h.blank with shape := { h.blank.shape with } }, ?_, h.node⟩,
    ⟨hpaints.colorOf, h.node⟩, ?_⟩, hlive ▸ hl, h.k⟩
  · rw [hlive]
    exact hl.bounded
  · rw [hlive]
    exact hl.inj

/-- The nodes marked as made for spills. -/
theorem contains_temporaries_ofCode {cat : Catalog} {k : Nat} {fp : Option Reg}
    {temps : List (Option Reg)} {code : Code} {g : Flow} :
    (ofCode cat k fp temps code g).temporaries.contains x = true ↔
      x < (ofCode cat k fp temps code g).size ∧
        (ofCode cat k fp temps code g).live.reg x ∈ temps := by
  show (Bitmap.contains ((List.range _).foldl _ _) _) = true ↔ _
  rw [Liveness.contains_foldl_insert_if, temporaries_precolorAll]
  simp [start, ofCode, Allocation.markTemporaries, size]

/-! ### Taking the graph apart -/

/-- The graph taken apart as far as the bound on the steps allows. -/
def reduced (c : Coloring) : Coloring :=
  (reduce c.build.classify.stepBound c.build.classify (dump .classified c.build.classify)).1

theorem run_eq (c : Coloring) : c.run.1 = c.reduced.assign := by
  unfold run reduced
  dsimp only

namespace Primed

variable (h : Primed c)
include h

theorem built : Built c c.build c.build.live.refs.size := by
  have hb := h.blank.build h.bounded
  rw [hb.live]
  exact hb

theorem classified : Classified c.build c.build.classify := h.built.classified h.blank

theorem live_build : c.build.live = c.live := h.built.live

theorem tidy_classify {H : Nat → Prop} : c.build.classify.Tidy { hard := H } :=
  h.classified.tidy h.built (h.live_build ▸ h.bounded)

/-- The first graph has an edge just where the code asks for one. -/
theorem interferes_classify : c.build.classify.interferes x y = true ↔
    ∃ j < c.live.refs.size, c.live.Conflict j x y ∨ c.live.Conflict j y x := by
  rw [h.classified.interferes_eq, h.built.interferes, h.live_build]

theorem separated_classify : c.build.classify.Separated := by
  intro a b hab
  rw [h.classified.find_eq, h.classified.find_eq]
  exact ⟨h.tidy_classify (H := fun _ => True) |>.graph.ne hab, Or.inl hab⟩

theorem precolored_classify (n : Nat) :
    c.build.classify.node n = .precolored ↔ c.node n = .precolored := by
  rw [h.classified.precolored_iff h.built.even.shape]
  unfold Coloring.node
  rw [h.built.nodes]

/-- Everything that steps keep, for the graph taken apart. -/
theorem reduced : c.reduced.Tidy {} ∧ c.reduced.Separated ∧ Since c.build.classify c.reduced := by
  refine reduce_induction (P := fun c' => c'.Tidy {} ∧ c'.Separated ∧ Since c.build.classify c')
    (fun {c' s} hP hs => ?_) _ _ ⟨h.tidy_classify, h.separated_classify, Since.refl _⟩
  obtain ⟨h1, h2, h3⟩ := hP
  obtain ⟨h4, h5⟩ := h1.step hs fun _ _ => trivial
  exact ⟨h4, h2.step h5 h1 h4, h3.step h5⟩

theorem live_reduced : c.reduced.live = c.live := by
  obtain ⟨-, -, hs⟩ := h.reduced
  exact hs.live.trans (h.classified.live.trans h.live_build)

theorem size_reduced : c.reduced.size = c.size := by
  unfold size
  rw [h.live_reduced]

theorem k_since (hs : Since c.build.classify c') : c'.k = c.k :=
  hs.k.trans (h.classified.k.trans h.built.k)

theorem k_reduced : c.reduced.k = c.k := h.k_since h.reduced.2.2

theorem precolored_since (hs : Since c.build.classify c') (n : Nat) :
    c'.node n = .precolored ↔ c.node n = .precolored := by
  rw [hs.precolored_iff, h.precolored_classify]

theorem color_since (hs : Since c.build.classify c') : c'.color = c.color := by
  rw [hs.color, h.classified.eq]
  exact h.built.color

/-- On the way too, just the machine registers have colors. -/
theorem machine_since (hs : Since c.build.classify c') (n : Nat) :
    c'.node n = .precolored ↔ ∃ color, c'.colorOf n = some color := by
  unfold colorOf
  rw [h.precolored_since hs, h.color_since hs]
  exact h.machine n

theorem precolored_reduced (x : Nat) : c.reduced.node x = .precolored ↔ c.node x = .precolored :=
  h.precolored_since h.reduced.2.2 x

theorem machine_reduced (n : Nat) :
    c.reduced.node n = .precolored ↔ ∃ color, c.reduced.colorOf n = some color :=
  h.machine_since h.reduced.2.2 n

/-! ### The final colors -/

/-- The final colors are those assigned to the nodes that stand for the registers. -/
theorem assigned : ∃ c', Assigned c.reduced [] (c.reduced.nodes.list .selected) c' ∧
    c.run.1 = { c' with color := c.run.1.color } ∧
    ∀ x < c.size, c.run.1.colorOf x = c'.colorOf (c.reduced.find x) := by
  obtain ⟨ht, -, -⟩ := h.reduced
  rw [run_eq, ← h.size_reduced]
  exact assign_spec ht.shape ht.finds h.machine_reduced

theorem live_run : c.run.1.live = c.live := by
  obtain ⟨c', h1, h2, -⟩ := h.assigned
  rw [h2, ← h.live_reduced]
  show c'.live = _
  rw [h1.eq]

theorem temporaries_run : c.run.1.temporaries = c.temporaries := by
  obtain ⟨-, -, hs⟩ := h.reduced
  obtain ⟨c', h1, h2, -⟩ := h.assigned
  have hc : c'.temporaries = c.temporaries := by
    rw [h1.eq]
    show c.reduced.temporaries = _
    rw [hs.temporaries, h.classified.eq]
    exact h.built.temporaries
  rw [← hc]
  generalize c.run.1 = r at h2 ⊢
  rw [h2]

/-- The end of the run as far as nodes and moves are concerned. -/
theorem run_spec : ∃ c', Assigned c.reduced [] (c.reduced.nodes.list .selected) c' ∧
    c.run.1.nodes = c'.nodes ∧ c.run.1.moves = c.reduced.moves ∧
    c.run.1.mergedInto = c.reduced.mergedInto ∧ c.run.1.live = c.live ∧
    ∀ x < c.size, c.run.1.colorOf x = c'.colorOf (c.reduced.find x) := by
  obtain ⟨c', h1, h2, h3⟩ := h.assigned
  have hlive := h.live_run
  generalize c.run.1 = r at h2 h3 hlive ⊢
  refine ⟨c', h1, ?_, ?_, ?_, hlive, h3⟩
  · rw [h2]
  · rw [h2]
    show c'.moves = _
    rw [h1.eq]
  · rw [h2]
    show c'.mergedInto = _
    rw [h1.eq]

theorem wf_run : c.run.1.nodes.Wf c.size := by
  obtain ⟨c', h1, h2, -⟩ := h.run_spec
  rw [h2, ← h.size_reduced, ← h1.size]
  exact h1.shape.nodes

/-- The nodes that stay without a color were taken out of the graph before, so none is a machine
register. -/
theorem spilled_spec (hn : n ∈ c.run.1.nodes.list .spilled) : c.run.1.node n = .spilled ∧
    n ∈ c.reduced.nodes.list .selected ∧ n < c.size ∧ c.node n ≠ .precolored := by
  obtain ⟨ht, -, -⟩ := h.reduced
  obtain ⟨c', h1, hnodes, -⟩ := h.run_spec
  have hnode : c'.node n = .spilled := by
    rw [hnodes] at hn
    exact (h1.shape.mem_list (by decide)).mp hn
  have hsel : n ∈ c.reduced.nodes.list .selected := by
    by_contra hsel
    have hstate := h1.node n hsel
    rw [hnode] at hstate
    have hlt := ht.shape.lt_of_node (by rw [← hstate]; decide)
    exact (ht.states hlt).2.1 hstate.symm
  have hsel' := (ht.shape.mem_list (by decide)).mp hsel
  refine ⟨by unfold Coloring.node at hnode ⊢; rw [hnodes, hnode], hsel, ?_, fun hp => ?_⟩
  · rw [← h.size_reduced]
    exact ht.shape.lt_of_node (by rw [hsel']; decide)
  · rw [(h.precolored_reduced n).mpr hp] at hsel'
    cases hsel'

end Primed

namespace Ready

variable (h : Ready regs c)
include h

theorem paints_reduced : c.reduced.Paints regs :=
  h.paints.congr h.live_reduced (h.color_since h.reduced.2.2) h.precolored_reduced

/-- A machine register keeps its own color. -/
theorem colorOf_run {color : Nat} {r : Option Reg} (hr : regs[color]? = some r)
    (hn : c.live.Names n r) : c.run.1.colorOf n = some color := by
  obtain ⟨ht, -, -⟩ := h.reduced
  obtain ⟨c', h1, -, h3⟩ := h.assigned
  have hcol : c.reduced.colorOf n = some color :=
    h.paints_reduced.colorOf.mpr ⟨r, hr, by rw [h.live_reduced]; exact hn⟩
  have hnode : c.reduced.node n = .precolored := (h.paints_reduced.node n).mpr ⟨color, hcol⟩
  have hsel : n ∉ c.reduced.nodes.list .selected := by
    rw [ht.shape.mem_list (by decide), hnode]
    decide
  rw [h3 n hn.lt, find_of_ne (by rw [hnode]; decide), h1.color n hsel, hcol]

/-- Registers of which one is written while the other is live get different colors. -/
theorem color_ne (hi : i < c.live.refs.size) (hc : c.live.Conflict i d v) {color : Nat}
    (hd : c.run.1.colorOf d = some color) : c.run.1.colorOf v ≠ some color := by
  obtain ⟨ht, hsep, hs⟩ := h.reduced
  obtain ⟨c', h1, -, h3⟩ := h.assigned
  have hint := hs.mono (h.interferes_classify.mpr ⟨i, hi, Or.inl hc⟩)
  have hdl := ht.graph.lt hint
  have hvl := ht.graph.lt_right hint
  rw [h3 d (h.size_reduced ▸ hdl)] at hd
  rw [h3 v (h.size_reduced ▸ hvl)]
  refine h1.color_ne ht.shape (fun {p q col} hp hq => ?_) ht.graph (ht.finds.node_find ht.shape hdl)
    (ht.finds.node_find ht.shape hvl) (hsep d v hint) hd
  exact h.paints_reduced.color_ne (h.live_reduced ▸ h.inj) hp hq

/-- The check for two registers of one color in use at the same time finds nothing. -/
theorem clash?_run : c.run.1.clash? = none := by
  unfold clash?
  rw [List.findSome?_eq_none_iff]
  intro i hi
  rw [List.findSome?_eq_none_iff]
  intro d hd
  unfold clashWith?
  cases hcol : c.run.1.colorOf d with
  | none => rfl
  | some color =>
    rw [Option.bind_some, Option.map_eq_none_iff, List.find?_eq_none]
    intro v hv hclash
    simp only [Bool.and_eq_true, decide_eq_true_eq, beq_iff_eq] at hclash
    rw [h.live_run] at hi hd hv hclash
    exact h.color_ne (List.mem_range.mp hi)
      ⟨hd, Bitmap.mem_toList.mp hv, hclash.1.2, hclash.1.1⟩ hcol hclash.2

end Ready

end Codegen.Coloring
