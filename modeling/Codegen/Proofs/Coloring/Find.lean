import Codegen.Proofs.Coloring.Graph

/-!
# Standing for merged nodes

Following mergers from a node ends at a node that was not merged, after at most as many steps as
there are merged nodes (`Finds`). So `find` has steps to spare, and merging a node changes it just
for the nodes that this node stood for (`find_merge`).
-/

namespace Codegen.Coloring

variable {c c' : Coloring} {d e r s u v x : Nat}

/-- Following `d` mergers from `x` ends at `r`, which was not merged. -/
inductive Chain (c : Coloring) : Nat → Nat → Nat → Prop
  | done {x : Nat} (h : c.node x ≠ .coalesced) : Chain c x 0 x
  | next {x d r : Nat} (h : c.node x = .coalesced) (t : Chain c (c.mergedOf x) d r) :
      Chain c x (d + 1) r

theorem Chain.node_ne (h : c.Chain x d r) : c.node r ≠ .coalesced := by
  induction h with
  | done h => exact h
  | next _ _ ih => exact ih

theorem Chain.findFrom_eq (h : c.Chain x d r) : ∀ fuel, d ≤ fuel → c.findFrom fuel x = r := by
  induction h with
  | done h =>
    intro fuel _
    cases fuel with
    | zero => rfl
    | succ fuel => simp [findFrom, h]
  | next h t ih =>
    intro fuel hd
    cases fuel with
    | zero => omega
    | succ fuel =>
      rw [findFrom, if_pos h]
      exact ih fuel (by omega)

/-- Every node leads to a node that stands for it. -/
def Finds (c : Coloring) : Prop :=
  ∀ x < c.size, ∃ d r, c.Chain x d r ∧ r < c.size ∧ d ≤ (c.nodes.list .coalesced).length

namespace Finds

variable (h : c.Finds) (hs : c.Shape)
include h hs

theorem chain_find (hx : x < c.size) : ∃ d, c.Chain x d (c.find x) ∧ c.find x < c.size := by
  obtain ⟨d, r, hc, hr, hd⟩ := h x hx
  have hfind : c.find x = r := hc.findFrom_eq _ (hd.trans (hs.nodes.length_list_le _))
  rw [hfind]
  exact ⟨d, hc, hr⟩

theorem find_lt (hx : x < c.size) : c.find x < c.size := (h.chain_find hs hx).choose_spec.2

theorem node_find (hx : x < c.size) : c.node (c.find x) ≠ .coalesced := by
  obtain ⟨d, hc, -⟩ := h.chain_find hs hx
  exact hc.node_ne

end Finds

/-- A node that was not merged stands for itself. -/
theorem find_of_ne (hx : c.node x ≠ .coalesced) : c.find x = x :=
  (Chain.done hx).findFrom_eq _ (Nat.zero_le _)

/-! ### When nothing is merged -/

section Same

variable (hsize : c'.size = c.size) (hmerged : c'.mergedInto = c.mergedInto)
  (hnode : ∀ x, c'.node x = .coalesced ↔ c.node x = .coalesced)
include hmerged hnode

theorem Chain.congr (h : c.Chain x d r) : c'.Chain x d r := by
  induction h with
  | done h => exact .done fun h' => h ((hnode _).mp h')
  | @next x d r h t ih =>
    refine .next ((hnode x).mpr h) ?_
    rwa [mergedOf, hmerged]

include hsize

theorem find_congr : c'.find x = c.find x := by
  unfold find
  rw [hsize]
  generalize c.size = fuel
  induction fuel generalizing x with
  | zero => rfl
  | succ fuel ih =>
    rw [findFrom, findFrom, hmerged]
    by_cases h : c.node x = .coalesced
    · rw [if_pos h, if_pos ((hnode x).mpr h), ih]
    · rw [if_neg h, if_neg fun h' => h ((hnode x).mp h')]

theorem Finds.congr (h : c.Finds)
    (hlen : (c'.nodes.list .coalesced).length = (c.nodes.list .coalesced).length) : c'.Finds := by
  intro x hx
  obtain ⟨d, r, hc, hr, hd⟩ := h x (hsize ▸ hx)
  exact ⟨d, r, hc.congr hmerged hnode, hsize ▸ hr, hlen ▸ hd⟩

end Same

/-! ### When a node is merged -/

section Merge

variable (hnode : ∀ x, c'.node x = .coalesced ↔ c.node x = .coalesced ∨ x = v)
  (hmerged : ∀ x, c'.mergedOf x = if x = v then u else c.mergedOf x)
  (hu : c.node u ≠ .coalesced) (hv : c.node v ≠ .coalesced) (huv : u ≠ v)
include hnode hmerged hu hv huv

theorem Chain.merge (h : c.Chain x d r) :
    c'.Chain x (if r = v then d + 1 else d) (if r = v then u else r) := by
  induction h with
  | @done x h =>
    by_cases hx : x = v
    · subst hx
      rw [if_pos rfl, if_pos rfl]
      refine .next ((hnode x).mpr (Or.inr rfl)) ?_
      rw [hmerged, if_pos rfl]
      refine .done fun h' => ?_
      rcases (hnode u).mp h' with h' | h'
      · exact hu h'
      · exact huv h'
    · rw [if_neg hx, if_neg hx]
      refine .done fun h' => ?_
      rcases (hnode x).mp h' with h' | h'
      · exact h h'
      · exact hx h'
  | @next x d r h t ih =>
    have hx : x ≠ v := by
      rintro rfl
      exact hv h
    have hnext : c'.Chain x ((if r = v then d + 1 else d) + 1) (if r = v then u else r) := by
      refine .next ((hnode x).mpr (Or.inl h)) ?_
      rwa [hmerged, if_neg hx]
    convert hnext using 1
    split <;> rfl

variable (hlen : (c'.nodes.list .coalesced).length = (c.nodes.list .coalesced).length + 1)
include hlen

theorem Finds.merge (h : c.Finds) (hsize : c'.size = c.size) (hus : u < c.size) : c'.Finds := by
  intro x hx
  obtain ⟨d, r, hc, hr, hd⟩ := h x (hsize ▸ hx)
  refine ⟨_, _, hc.merge hnode hmerged hu hv huv, ?_, ?_⟩
  · rw [hsize]
    split
    · exact hus
    · exact hr
  · rw [hlen]
    split
    · omega
    · omega

/-- Merging `v` into `u` lets `u` stand for all that `v` stood for. -/
theorem Finds.find_merge (h : c.Finds) (hs : c.Shape) (hs' : c'.Shape) (hx : x < c.size) :
    c'.find x = if c.find x = v then u else c.find x := by
  obtain ⟨d, r, hc, hr, hd⟩ := h x hx
  have hfind : c.find x = r := hc.findFrom_eq _ (hd.trans (hs.nodes.length_list_le _))
  have hle : (if r = v then d + 1 else d) ≤ c'.size := by
    refine le_trans ?_ (hs'.nodes.length_list_le .coalesced)
    rw [hlen]
    split
    · omega
    · omega
  rw [hfind]
  exact (hc.merge hnode hmerged hu hv huv).findFrom_eq _ hle

end Merge

end Codegen.Coloring
