import Codegen.Proofs.Coloring.Separation

/-!
# Assigned colors

Nodes are colored in the reverse of the order in which they were taken out. A node gets a color that
none of the nodes has that were colored before it and stand for its neighbours; it is spilled only if
those have all colors between them (`Assigned`). Hence separate nodes have different colors.
-/

namespace Codegen.Coloring

open List

variable {c c' : Coloring} {A B : List Nat} {n p q t x : Nat}

/-- The colors after the nodes in `B` were colored, those in `A` being still to come. -/
structure Assigned (c : Coloring) (A B : List Nat) (c' : Coloring) : Prop where
  eq : c' = { c with nodes := c'.nodes, color := c'.color }
  shape : c'.Shape
  node : ∀ x, x ∉ B → c'.node x = c.node x
  color : ∀ x, x ∉ B → c'.colorOf x = c.colorOf x
  done : ∀ x ∈ B, c'.node x = .colored ∧ (∃ color < c.k, c'.colorOf x = some color) ∨
    c'.node x = .spilled ∧ c'.colorOf x = none
  /-- The color of a node differs from those that its neighbours had before. -/
  proper : ∀ {A' n B'}, B = A' ++ n :: B' → ∀ t ∈ c.neighboursOf n, c.find t ∉ A ++ A' →
    c.find t ≠ n → ∀ color, c'.colorOf n = some color → c'.colorOf (c.find t) ≠ some color
  /-- A node is spilled only if its neighbours have all colors. -/
  full : ∀ {A' n B'}, B = A' ++ n :: B' → c'.node n = .spilled →
    c.k ≤ (((c.neighboursOf n).map c.find).toFinset \ (A ++ A').toFinset).card

/-! ### Free colors -/

theorem mem_usedColors {i : Nat} : i ∈ c.usedColors n ↔ ∃ t ∈ c.neighboursOf n,
    (c.node (c.find t) = .precolored ∨ c.node (c.find t) = .colored) ∧
      c.colorOf (c.find t) = some i := by
  simp only [usedColors, neighboursOf, mem_filterMap, Bool.or_eq_true, decide_eq_true_eq]
  constructor
  · rintro ⟨t, ht, h⟩
    split at h
    · rename_i hs
      exact ⟨t, ht, hs, h⟩
    · cases h
  · rintro ⟨t, ht, hs, h⟩
    exact ⟨t, ht, by rw [if_pos hs]; exact h⟩

theorem freeColor?_eq_some {i : Nat} (h : c.freeColor? n = some i) :
    i < c.k ∧ i ∉ c.usedColors n := by
  unfold freeColor? at h
  have hmem := mem_of_find?_eq_some h
  have hp := find?_some h
  exact ⟨mem_range.mp hmem, by simpa using hp⟩

theorem freeColor?_eq_none (h : c.freeColor? n = none) {i : Nat} (hi : i < c.k) :
    i ∈ c.usedColors n := by
  unfold freeColor? at h
  simpa using find?_eq_none.mp h i (mem_range.mpr hi)

/-! ### Coloring one node after the other -/

section Step

variable (hsel : c.nodes.list .selected = A ++ B) (hs : c.Shape)
  (hcol : ∀ n, c.node n = .precolored ↔ ∃ color, c.colorOf n = some color)
include hsel hs

theorem Assigned.selected_of_mem (h : x ∈ B) : c.node x = .selected :=
  (hs.mem_list (by decide)).mp (by rw [hsel]; exact mem_append_right _ h)

variable (h : Assigned c A B c')
include h

omit hsel hs in
theorem Assigned.size : c'.size = c.size := by
  rw [h.eq]
  rfl

omit hsel hs in
theorem Assigned.neighboursOf_eq (n : Nat) : c'.neighboursOf n = c.neighboursOf n := by
  rw [h.eq]
  rfl

theorem Assigned.coalesced_iff (x : Nat) :
    c'.node x = .coalesced ↔ c.node x = .coalesced := by
  by_cases hx : x ∈ B
  · rw [Assigned.selected_of_mem hsel hs hx]
    rcases h.done x hx with ⟨hd, -⟩ | ⟨hd, -⟩ <;> rw [hd] <;> decide
  · rw [h.node x hx]

theorem Assigned.find_eq (x : Nat) : c'.find x = c.find x :=
  find_congr h.size (by rw [h.eq]) (h.coalesced_iff hsel hs)

include hcol

omit hsel hs in
/-- Just machine registers and colored nodes have colors. -/
theorem Assigned.state_of_color {color : Nat} (hx : c'.colorOf x = some color) :
    c'.node x = .precolored ∨ c'.node x = .colored := by
  by_cases hB : x ∈ B
  · rcases h.done x hB with ⟨hd, -⟩ | ⟨-, hd⟩
    · exact Or.inr hd
    · rw [hd] at hx
      cases hx
  · rw [h.node x hB]
    rw [h.color x hB] at hx
    exact Or.inl ((hcol x).mpr ⟨color, hx⟩)

end Step

theorem Shape.colorOf_setIfInBounds (hs : c.Shape) (hn : n < c.size) (color : Nat) :
    (c.color.setIfInBounds n (some color)).getD x none =
      if x = n then some color else c.colorOf x := by
  have hn' : n < c.color.size := hs.color.symm ▸ hn
  simp only [Coloring.colorOf, Array.getD_eq_getD_getElem?, Array.getElem?_setIfInBounds]
  by_cases hx : n = x
  · subst hx
    simp [hn']
  · simp [hx, Ne.symm hx]

theorem Shape.assignNode (hs : c.Shape) (hn : n < c.size) :
    (c.assignNode n).Shape ∧
      c.assignNode n = { c with nodes := (c.assignNode n).nodes, color := (c.assignNode n).color } ∧
      (∀ x, x ≠ n → (c.assignNode n).node x = c.node x) ∧
      (∀ x, x ≠ n → (c.assignNode n).colorOf x = c.colorOf x) ∧
      ((c.assignNode n).node n = .colored ∧
          (∃ color, (c.assignNode n).colorOf n = some color ∧ c.freeColor? n = some color) ∨
        (c.assignNode n).node n = .spilled ∧ (c.assignNode n).colorOf n = c.colorOf n ∧
          c.freeColor? n = none) := by
  unfold Coloring.assignNode
  have hnode := fun st x => hs.node_setNode (a := x) (s := st) hn
  cases hf : c.freeColor? n with
  | some color =>
    have hc := fun x => hs.colorOf_setIfInBounds (x := x) hn color
    refine ⟨{ hs.setNode hn (s := .colored) (by decide) with
      color := Array.size_setIfInBounds.trans hs.color }, rfl, fun x hx => ?_, fun x hx => ?_,
      Or.inl ⟨?_, color, ?_, rfl⟩⟩
    · exact (hnode .colored x).trans (if_neg hx)
    · exact (hc x).trans (if_neg hx)
    · exact (hnode .colored n).trans (if_pos rfl)
    · exact (hc n).trans (if_pos rfl)
  | none =>
    exact ⟨hs.setNode hn (by decide), rfl, fun x hx => (hnode .spilled x).trans (if_neg hx),
      fun _ _ => rfl, Or.inr ⟨(hnode .spilled n).trans (if_pos rfl), rfl, rfl⟩⟩

/-- Coloring the last of the nodes that are still to come. -/
theorem Assigned.step (h : Assigned c (A ++ [n]) B c')
    (hsel : c.nodes.list .selected = (A ++ [n]) ++ B) (hs : c.Shape)
    (hcol : ∀ n, c.node n = .precolored ↔ ∃ color, c.colorOf n = some color) :
    Assigned c A (n :: B) (c'.assignNode n) := by
  have hmem : n ∈ c.nodes.list .selected := by rw [hsel]; simp
  have hnsel : c.node n = .selected := (hs.mem_list (by decide)).mp hmem
  have hlt : n < c.size := hs.lt_of_node (by rw [hnsel]; decide)
  have hnd := hs.nodes.nodup .selected
  rw [hsel] at hnd
  have hnB : n ∉ B := fun hB =>
    (nodup_append'.mp hnd).2.2 (mem_append_right _ mem_cons_self) hB
  have hAB : ∀ x ∈ A, x ∉ B ∧ x ≠ n := by
    intro x hx
    refine ⟨fun hB => (nodup_append'.mp hnd).2.2 (mem_append_left _ hx) hB, ?_⟩
    rintro rfl
    exact (nodup_append'.mp (nodup_append'.mp hnd).1).2.2 hx mem_cons_self
  obtain ⟨g1, g2, g3, g4, g5⟩ := h.shape.assignNode (n := n) (h.size.symm ▸ hlt)
  have hfind := h.find_eq hsel hs
  have hnb := h.neighboursOf_eq n
  have hk : c'.k = c.k := by rw [h.eq]
  have hnone : c.colorOf n = none := by
    by_contra hc
    have := (hcol n).mpr (Option.ne_none_iff_exists'.mp hc)
    rw [hnsel] at this
    cases this
  refine ⟨by rw [g2, h.eq], g1, fun x hx => ?_, fun x hx => ?_, fun x hx => ?_, ?_, ?_⟩
  · rw [mem_cons, not_or] at hx
    rw [g3 x hx.1, h.node x hx.2]
  · rw [mem_cons, not_or] at hx
    rw [g4 x hx.1, h.color x hx.2]
  · by_cases hxn : x = n
    · subst hxn
      rcases g5 with ⟨g6, color, g7, g8⟩ | ⟨g6, g7, -⟩
      · exact Or.inl ⟨g6, color, hk ▸ (freeColor?_eq_some g8).1, g7⟩
      · exact Or.inr ⟨g6, by rw [g7, h.color x hnB, hnone]⟩
    · rw [g3 x hxn, g4 x hxn]
      exact h.done x ((mem_cons.mp hx).resolve_left hxn)
  · intro A' m B' hB t ht hA hne color hm
    cases A' with
    | nil =>
      obtain ⟨rfl, rfl⟩ := List.cons.inj hB
      rw [g4 _ hne]
      intro hcolor
      rcases g5 with ⟨-, color', g7, g8⟩ | ⟨-, g7, -⟩
      · rw [hm] at g7
        cases g7
        refine (freeColor?_eq_some g8).2 (mem_usedColors.mpr ⟨t, hnb ▸ ht, ?_⟩)
        rw [hfind]
        exact ⟨h.state_of_color hcol hcolor, hcolor⟩
      · rw [g7, h.color n hnB, hnone] at hm
        cases hm
    | cons y A'' =>
      obtain ⟨rfl, rfl⟩ := List.cons.inj hB
      have hmn : m ≠ n := by
        rintro rfl
        exact hnB (by simp)
      have hfn : c.find t ≠ n := by
        rintro hf
        exact hA (by rw [hf]; simp)
      rw [g4 m hmn] at hm
      rw [g4 _ hfn]
      exact h.proper rfl t ht (by simpa using hA) hne color hm
  · intro A' m B' hB hm
    cases A' with
    | nil =>
      obtain ⟨rfl, rfl⟩ := List.cons.inj hB
      rcases g5 with ⟨g6, -⟩ | ⟨-, -, g8⟩
      · rw [hm] at g6
        cases g6
      -- every color is that of some node that stands for a neighbour
      have hsub : Finset.range c.k ⊆ (((c.neighboursOf n).map c.find).toFinset \
          (A ++ []).toFinset).image fun x => (c'.colorOf x).getD 0 := by
        intro i hi
        obtain ⟨t, ht, hst, hci⟩ := mem_usedColors.mp
          (freeColor?_eq_none g8 (hk.symm ▸ Finset.mem_range.mp hi))
        rw [hfind] at hst hci
        refine Finset.mem_image.mpr ⟨c.find t, ?_, by rw [hci]; rfl⟩
        rw [Finset.mem_sdiff, mem_toFinset, mem_toFinset, append_nil]
        refine ⟨mem_map.mpr ⟨t, hnb ▸ ht, rfl⟩, fun hA => ?_⟩
        rw [h.node _ (hAB _ hA).1, (hs.mem_list (by decide)).mp
          (show c.find t ∈ c.nodes.list .selected by rw [hsel]; simp [hA])] at hst
        rcases hst with hst | hst <;> cases hst
      calc c.k = (Finset.range c.k).card := (Finset.card_range _).symm
        _ ≤ _ := Finset.card_le_card hsub
        _ ≤ _ := Finset.card_image_le
    | cons y A'' =>
      obtain ⟨rfl, rfl⟩ := List.cons.inj hB
      have hmn : m ≠ n := by
        rintro rfl
        exact hnB (by simp)
      rw [g3 m hmn] at hm
      have := h.full rfl hm
      rwa [append_assoc, singleton_append] at this

theorem Assigned.run (h : Assigned c A B c') (hsel : c.nodes.list .selected = A ++ B)
    (hs : c.Shape)
    (hcol : ∀ n, c.node n = .precolored ↔ ∃ color, c.colorOf n = some color) :
    Assigned c [] (c.nodes.list .selected) (A.reverse.foldl Coloring.assignNode c') := by
  induction A using List.reverseRecOn generalizing B c' with
  | nil =>
    rw [hsel]
    exact h
  | append_singleton A n ih =>
    rw [reverse_append, reverse_singleton, singleton_append, foldl_cons]
    exact ih (h.step hsel hs hcol) (by rw [hsel, append_assoc, singleton_append])

theorem Assigned.init (hs : c.Shape) : Assigned c (c.nodes.list .selected) [] c := by
  refine ⟨rfl, hs, fun _ _ => rfl, fun _ _ => rfl, fun x hx => (by cases hx), ?_, ?_⟩
  · intro A' n B' hB
    simp at hB
  · intro A' n B' hB
    simp at hB

/-! ### Merged nodes -/

theorem inherit_foldl (list : List Nat) (hlist : ∀ x ∈ list, x < c.color.size ∧ c.find x ∉ list) :
    list.foldl inheritColor c = { c with color := (list.foldl inheritColor c).color } ∧
      (list.foldl inheritColor c).color.size = c.color.size ∧
      ∀ x, (list.foldl inheritColor c).colorOf x =
        if x ∈ list then c.colorOf (c.find x) else c.colorOf x := by
  induction list using List.reverseRecOn with
  | nil => simp
  | append_singleton list n ih =>
    have hlist' : ∀ x ∈ list, x < c.color.size ∧ c.find x ∉ list := by
      intro x hx
      obtain ⟨h1, h2⟩ := hlist x (mem_append_left _ hx)
      exact ⟨h1, fun h => h2 (mem_append_left _ h)⟩
    obtain ⟨h1, h2, h3⟩ := ih hlist'
    obtain ⟨hn, hfn⟩ := hlist n (by simp)
    rw [foldl_append, foldl_cons, foldl_nil]
    generalize list.foldl inheritColor c = c1 at *
    have hfind : c1.find n = c.find n := by
      rw [h1]
      exact find_congr rfl rfl fun _ => Iff.rfl
    refine ⟨?_, ?_, fun x => ?_⟩
    · unfold inheritColor
      rw [h1]
    · unfold inheritColor
      rw [Array.size_setIfInBounds, h2]
    · have hset : (c1.inheritColor n).colorOf x =
          if x = n then c1.colorOf (c1.find n) else c1.colorOf x := by
        simp only [inheritColor, Coloring.colorOf, Array.getD_eq_getD_getElem?,
          Array.getElem?_setIfInBounds]
        by_cases hx : n = x
        · subst hx
          simp [h2, hn]
        · simp [hx, Ne.symm hx]
      rw [hset, hfind, h3, h3, if_neg fun h => hfn (mem_append_left _ h)]
      by_cases hx : x = n
      · subst hx
        simp
      · simp [hx]

/-- The colors in the end: each node has the color of the node that stands for it. -/
theorem assign_spec (hs : c.Shape) (hfinds : c.Finds)
    (hcol : ∀ n, c.node n = .precolored ↔ ∃ color, c.colorOf n = some color) :
    ∃ c', Assigned c [] (c.nodes.list .selected) c' ∧
      c.assign = { c' with color := c.assign.color } ∧
      ∀ x < c.size, c.assign.colorOf x = c'.colorOf (c.find x) := by
  have h := (Assigned.init hs).run (append_nil _).symm hs hcol
  refine ⟨_, h, ?_⟩
  unfold Coloring.assign
  dsimp only
  generalize (c.nodes.list .selected).reverse.foldl Coloring.assignNode c = c1 at *
  have hsel : c.nodes.list .selected = [] ++ c.nodes.list .selected := rfl
  have hcoal := h.coalesced_iff hsel hs
  have hfind := h.find_eq hsel hs
  have hmem : ∀ x, x ∈ c1.nodes.list .coalesced ↔ c.node x = .coalesced := fun x => by
    rw [h.shape.mem_list (by decide), hcoal]
  have hlist : ∀ x ∈ c1.nodes.list .coalesced,
      x < c1.color.size ∧ c1.find x ∉ c1.nodes.list .coalesced := by
    intro x hx
    have hxc := (hmem x).mp hx
    have hlt : x < c.size := hs.lt_of_node (by rw [hxc]; decide)
    refine ⟨by rw [h.shape.color, h.size]; exact hlt, ?_⟩
    rw [hmem, hfind]
    exact hfinds.node_find hs hlt
  obtain ⟨h1, -, h3⟩ := inherit_foldl _ hlist
  refine ⟨h1, fun x hx => ?_⟩
  rw [h3, hfind]
  by_cases hxc : c.node x = .coalesced
  · rw [if_pos ((hmem x).mpr hxc)]
  · rw [if_neg fun hm => hxc ((hmem x).mp hm), find_of_ne hxc]

/-! ### Separate nodes -/

section Proper

variable (h : Assigned c [] (c.nodes.list .selected) c') (hs : c.Shape)
  (hdist : ∀ {p q color}, c.colorOf p = some color → c.colorOf q = some color → p = q)
include h

theorem Assigned.color_ne_of_covers (hl : c.LeavesBefore p q) (hc : c.Covers p q) (hne : p ≠ q)
    {color : Nat} (hp : c'.colorOf p = some color) : c'.colorOf q ≠ some color := by
  obtain ⟨A, B, hsel, hq⟩ := hl
  obtain ⟨t, ht, rfl⟩ := hc
  exact h.proper hsel t ht (by simpa using hq) hne.symm color hp

include hs hdist

/-- Separate nodes that stand for themselves have different colors. -/
theorem Assigned.color_ne (hg : c.IsGraph) (hp : c.node p ≠ .coalesced)
    (hq : c.node q ≠ .coalesced) (hsep : c.Separate p q) {color : Nat}
    (hpc : c'.colorOf p = some color) : c'.colorOf q ≠ some color := by
  obtain ⟨hne, hi | ⟨hl, hc⟩ | ⟨hl, hc⟩⟩ := hsep
  · -- of two nodes that interfere, a selected one covers the other
    have hcov : ∀ {x y}, c.interferes x y = true → c.node x = .selected →
        c.node y ≠ .coalesced → c.Covers x y := fun {x y} hi hx hy =>
      ⟨y, (hg.mem_neighboursOf (hg.lt hi) (by rw [hx]; decide)).mpr hi, find_of_ne hy⟩
    by_cases hps : c.node p = .selected
    · by_cases hqs : c.node q = .selected
      · obtain ⟨A, B, hsel⟩ := append_of_mem ((hs.mem_list (by decide)).mpr hps)
        by_cases hqA : q ∈ A
        · obtain ⟨A₁, A₂, rfl⟩ := append_of_mem hqA
          have hpA : p ∉ A₁ := by
            have hnd := hs.nodes.nodup .selected
            rw [hsel] at hnd
            intro hpA
            exact (nodup_append'.mp hnd).2.2 (mem_append_left _ hpA) mem_cons_self
          have hl : c.LeavesBefore q p := ⟨A₁, A₂ ++ p :: B, by rw [hsel]; simp, hpA⟩
          intro hqc
          exact h.color_ne_of_covers hl (hcov (hg.symm hi) hqs hp) hne.symm hqc hpc
        · exact h.color_ne_of_covers ⟨A, B, hsel, hqA⟩ (hcov hi hps hq) hne hpc
      · exact h.color_ne_of_covers (hs.leavesBefore hps hqs) (hcov hi hps hq) hne hpc
    · by_cases hqs : c.node q = .selected
      · intro hqc
        exact h.color_ne_of_covers (hs.leavesBefore hqs hps) (hcov (hg.symm hi) hqs hp) hne.symm
          hqc hpc
      · have hkeep : ∀ {x}, c.node x ≠ .selected → c'.colorOf x = c.colorOf x := fun hx =>
          h.color _ fun hm => hx ((hs.mem_list (by decide)).mp hm)
        rw [hkeep hps] at hpc
        rw [hkeep hqs]
        exact fun hqc => hne (hdist hpc hqc)
  · exact h.color_ne_of_covers hl hc hne hpc
  · intro hqc
    exact h.color_ne_of_covers hl hc hne.symm hqc hpc

end Proper

end Codegen.Coloring
