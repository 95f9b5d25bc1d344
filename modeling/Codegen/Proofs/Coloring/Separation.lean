import Codegen.Proofs.Coloring.Build

/-!
# Separated nodes

Whatever is merged or taken out, two nodes that interfere stay separate (`Separated`): the nodes that
stand for them differ, and either these interfere still, or the one that was taken out first has a
neighbour that the other stands for. So when the first one gets its color, the other has its own
already and it counts.
-/

namespace Codegen.Coloring

variable {c c' c₁ : Coloring} {H : Nat → Prop} {a b n p q t u v x : Nat}

/-! ### The relation -/

/-- Node `a` was taken out, and `b` was not taken out before it. -/
def LeavesBefore (c : Coloring) (a b : Nat) : Prop :=
  ∃ A B, c.nodes.list .selected = A ++ a :: B ∧ b ∉ A

/-- Node `b` stands for a neighbour of `a`. -/
def Covers (c : Coloring) (a b : Nat) : Prop := ∃ t ∈ c.neighboursOf a, c.find t = b

/-- Nodes that get different colors if they get any. -/
def Separate (c : Coloring) (a b : Nat) : Prop :=
  a ≠ b ∧ (c.interferes a b = true ∨ c.LeavesBefore a b ∧ c.Covers a b ∨
    c.LeavesBefore b a ∧ c.Covers b a)

/-- Nodes that interfere are separate, as are those that stand for them. -/
def Separated (c : Coloring) : Prop :=
  ∀ a b, c.interferes a b = true → c.Separate (c.find a) (c.find b)

theorem Separate.symm (hg : c.IsGraph) (h : c.Separate a b) : c.Separate b a := by
  obtain ⟨hne, h | h | h⟩ := h
  · exact ⟨hne.symm, Or.inl (hg.symm h)⟩
  · exact ⟨hne.symm, Or.inr (Or.inr h)⟩
  · exact ⟨hne.symm, Or.inr (Or.inl h)⟩

theorem Shape.selected_of_leavesBefore (hs : c.Shape) (h : c.LeavesBefore a b) :
    c.node a = .selected := by
  obtain ⟨A, B, hl, -⟩ := h
  refine (hs.mem_list (by decide)).mp ?_
  rw [hl]
  exact List.mem_append_right _ List.mem_cons_self

/-- A node that was taken out left before every node that was not. -/
theorem Shape.leavesBefore (hs : c.Shape) (ha : c.node a = .selected) (hb : c.node b ≠ .selected) :
    c.LeavesBefore a b := by
  obtain ⟨A, B, hl⟩ := List.append_of_mem ((hs.mem_list (by decide)).mpr ha)
  refine ⟨A, B, hl, fun hbA => hb ((hs.mem_list (by decide)).mp ?_)⟩
  rw [hl]
  exact List.mem_append_left _ hbA

/-! ### Steps keep nodes separate -/

/-- Nodes stay separate while none is merged and no edge is added. -/
theorem Separated.extend (h : c.Separated) (hfind : ∀ x, c'.find x = c.find x)
    (hint : ∀ x y, c'.interferes x y = c.interferes x y)
    (hnb : ∀ x, c'.neighboursOf x = c.neighboursOf x)
    (hsel : ∃ L, c'.nodes.list .selected = c.nodes.list .selected ++ L) : c'.Separated := by
  obtain ⟨L, hL⟩ := hsel
  have hleave : ∀ {x y}, c.LeavesBefore x y → c'.LeavesBefore x y := by
    rintro x y ⟨A, B, hl, hy⟩
    exact ⟨A, B ++ L, by rw [hL, hl, List.append_assoc, List.cons_append], hy⟩
  have hcover : ∀ {x y}, c.Covers x y → c'.Covers x y := by
    rintro x y ⟨t, ht, hf⟩
    exact ⟨t, hnb x ▸ ht, (hfind t).trans hf⟩
  intro a b hab
  rw [hint] at hab
  obtain ⟨hne, hsep⟩ := h a b hab
  rw [hfind, hfind]
  refine ⟨hne, ?_⟩
  rw [hint]
  exact hsep.imp id (Or.imp (And.imp hleave hcover) (And.imp hleave hcover))

section Merge

variable (hm : Merges u v c c')
include hm

theorem Merges.leavesBefore (h : c.LeavesBefore a b) : c'.LeavesBefore a b := by
  obtain ⟨A, B, hl, hb⟩ := h
  exact ⟨A, B, by rw [hm.selected, hl], hb⟩

variable (ht : c.Tidy { hard := H }) (ht' : c'.Tidy { hard := H })
include ht ht'

/-- What a node covered it still covers, with `u` for `v`. -/
theorem Merges.covers (ha : c.node a = .selected) (h : c.Covers a b) :
    c'.Covers a (if b = v then u else b) := by
  obtain ⟨t, htn, hf⟩ := h
  have hav : a ≠ v := by
    rintro rfl
    exact hm.mergeable.right_ne_selected ha
  have halt : a < c.size := ht.shape.lt_of_node (by rw [ha]; decide)
  have hint := (ht.graph.mem_neighboursOf halt (by rw [ha]; decide)).mp htn
  refine ⟨t, ?_, ?_⟩
  · refine (ht'.graph.mem_neighboursOf (hm.size.symm ▸ halt) ?_).mpr (hm.mono hint)
    rw [(hm.selected_iff hav).mpr ha]
    decide
  · rw [hm.find (ht.graph.lt_right hint), hf]

/-- A node that is separate from `v` is separate from `u` afterwards. -/
theorem Merges.separate_right (hq : c.node q ≠ .coalesced) (h : c.Separate q v) :
    c'.Separate q u := by
  obtain ⟨hqv, hsep⟩ := h
  have hvp := hm.mergeable.right_ne_precolored
  have hleave : c.node q = .selected → c'.LeavesBefore q u := fun hs =>
    hm.leavesBefore (ht.shape.leavesBefore hs hm.mergeable.inGraph_left.1)
  rcases hsep with hi | ⟨hl, hc⟩ | ⟨hl, -⟩
  · have hqu : q ≠ u := by
      rintro rfl
      rw [hm.mergeable.apart] at hi
      cases hi
    refine ⟨hqu, ?_⟩
    by_cases hs : c.node q = .selected
    · have hcov : c.Covers q v :=
        ⟨v, (ht.graph.mem_neighboursOf (ht.graph.lt hi) (by rw [hs]; decide)).mpr hi,
          find_of_ne hm.mergeable.right_ne_coalesced⟩
      have := hm.covers ht ht' hs hcov
      rw [if_pos rfl] at this
      exact Or.inr (Or.inl ⟨hleave hs, this⟩)
    · refine Or.inl (hm.interferes.mpr (Or.inr (Or.inl ⟨?_, rfl⟩)))
      exact (ht.graph.mem_adjacent hm.mergeable.lt_right hvp).mpr ⟨ht.graph.symm hi, hs, hq⟩
  · have hs := ht.shape.selected_of_leavesBefore hl
    have hqu : q ≠ u := by
      rintro rfl
      exact hm.mergeable.inGraph_left.1 hs
    have := hm.covers ht ht' hs hc
    rw [if_pos rfl] at this
    exact ⟨hqu, Or.inr (Or.inl ⟨hleave hs, this⟩)⟩
  · exact absurd (ht.shape.selected_of_leavesBefore hl) hm.mergeable.right_ne_selected

theorem Merges.separate (hp : c.node p ≠ .coalesced) (hq : c.node q ≠ .coalesced)
    (h : c.Separate p q) :
    c'.Separate (if p = v then u else p) (if q = v then u else q) := by
  by_cases hpv : p = v
  · subst hpv
    have hqp : q ≠ p := h.1.symm
    rw [if_pos rfl, if_neg hqp]
    exact (hm.separate_right ht ht' hq (h.symm ht.graph)).symm ht'.graph
  · by_cases hqv : q = v
    · subst hqv
      rw [if_neg hpv, if_pos rfl]
      exact hm.separate_right ht ht' hp h
    · rw [if_neg hpv, if_neg hqv]
      refine ⟨h.1, ?_⟩
      have hcov : ∀ {x y}, y ≠ v → c.LeavesBefore x y ∧ c.Covers x y →
          c'.LeavesBefore x y ∧ c'.Covers x y := by
        rintro x y hy ⟨hl, hc⟩
        have := hm.covers ht ht' (ht.shape.selected_of_leavesBefore hl) hc
        rw [if_neg hy] at this
        exact ⟨hm.leavesBefore hl, this⟩
      exact h.2.imp hm.mono (Or.imp (hcov hqv) (hcov hpv))

theorem Separated.merge (h : c.Separated) : c'.Separated := by
  intro a b hab
  -- an old edge, or one of those that lead to `u` from now on
  have hnew : ∀ {t}, t ∈ c.adjacent v → c'.Separate (c'.find t) (c'.find u) := by
    intro t htv
    obtain ⟨hi, hin⟩ := (ht.graph.mem_adjacent hm.mergeable.lt_right
      hm.mergeable.right_ne_precolored).mp htv
    have hft : c.find t = t := find_of_ne hin.2
    have hfu : c.find u = u := find_of_ne hm.mergeable.left_ne_coalesced
    rw [hm.find (ht.graph.lt_right hi), hm.find hm.mergeable.lt_left, hft, hfu,
      if_neg (ht.graph.ne hi).symm, if_neg hm.mergeable.ne]
    have hi' := hm.interferes.mpr (Or.inr (Or.inl ⟨htv, rfl⟩))
    exact ⟨ht'.graph.ne hi', Or.inl hi'⟩
  rcases hm.interferes.mp hab with hi | ⟨hin, rfl⟩ | ⟨rfl, hin⟩
  · have ha := ht.graph.lt hi
    have hb := ht.graph.lt_right hi
    rw [hm.find ha, hm.find hb]
    exact hm.separate ht ht' (ht.finds.node_find ht.shape ha) (ht.finds.node_find ht.shape hb) (h a b hi)
  · exact hnew hin
  · exact (hnew hin).symm ht'.graph

end Merge

/-- Every step keeps interfering nodes separate. -/
theorem Separated.step {s : Step} (h : c.Separated) (hch : Change c s c')
    (ht : c.Tidy { hard := H }) (ht' : c'.Tidy { hard := H }) : c'.Separated := by
  have hsift : Sifts c c' → c'.Separated := fun hs =>
    h.extend (fun _ => hs.find_eq) hs.interferes_eq hs.neighboursOf_eq
      ⟨[], by rw [hs.selected, List.append_nil]⟩
  cases s with
  | simplify n =>
    have hr : Removes n c c' := hch
    exact h.extend hr.find hr.interferes hr.neighboursOf ⟨[n], hr.selected⟩
  | coalesce m =>
    rcases hch with hd | ⟨-, u, v, hm⟩
    · exact hsift hd.toSifts
    · exact Separated.merge hm ht ht' h
  | freeze n => exact hsift (Releases.toSifts hch)
  | spill choice => exact hsift hch.1.toSifts

/-! ### From the first graph on -/

/-- What a run of steps keeps of the coloring it began with. -/
structure Since (c₁ c : Coloring) : Prop extends Keeps c₁ c where
  precolored_iff : ∀ n, c.node n = .precolored ↔ c₁.node n = .precolored
  mono : ∀ {a b}, c₁.interferes a b = true → c.interferes a b = true

theorem Since.refl (c : Coloring) : Since c c :=
  { live := rfl, k := rfl, firstDegree := rfl, color := rfl, temporaries := rfl,
    precolored_iff := fun _ => Iff.rfl, mono := id }

theorem Since.step {s : Step} (h : Since c₁ c) (hch : Change c s c') : Since c₁ c' := by
  have hk := hch.keeps
  refine { live := hk.live.trans h.live, k := hk.k.trans h.k,
           firstDegree := hk.firstDegree.trans h.firstDegree, color := hk.color.trans h.color,
           temporaries := hk.temporaries.trans h.temporaries,
           precolored_iff := fun n => ?_, mono := fun {a b} hab => ?_ }
  · rw [hch.precolored_iff, h.precolored_iff]
  · exact hch.mono (h.mono hab)

end Codegen.Coloring
