import Codegen.Proofs.Coloring.Stuck
import Codegen.Proofs.Coloring.Termination

/-!
# Mergers are conservative

If the first graph can be emptied by deleting nodes with few neighbours, one after the other, then no
set of its nodes is stuck. Mergers never make one stuck, so no node has to be chosen for a spill, and
every node finds a color (`Primed.spilled_eq_nil`).
-/

namespace Codegen.Coloring

variable {c : Coloring} {S T : Finset Nat} {n x : Nat}

/-- The nodes that are no machine registers. -/
def virtualNodes (c : Coloring) : Finset Nat :=
  (Finset.range c.size).filter fun n => c.node n ≠ .precolored

/-- The nodes of a set can be deleted one after the other, each having fewer neighbours than there
are colors when its turn comes. Machine registers are never deleted. -/
inductive Empties (c : Coloring) : Finset Nat → Prop
  | done : Empties c ∅
  | delete {S : Finset Nat} {n : Nat} (hn : n ∈ S) (hfew : (c.crowd S n).card < c.k)
      (h : Empties c (S.erase n)) : Empties c S

theorem crowd_mono (h : T ⊆ S) : c.crowd T x ⊆ c.crowd S x := by
  intro y hy
  simp only [crowd, Finset.mem_filter] at hy ⊢
  exact ⟨hy.1, hy.2.1.imp (@h y) id, hy.2.2⟩

/-- Where all nodes can be deleted, no nodes keep each other in the graph: the first of them that is
deleted still sees all the others. -/
theorem Empties.eq_empty (h : c.Empties S) (hT : T ⊆ S)
    (hmany : ∀ x ∈ T, c.k ≤ (c.crowd T x).card) : T = ∅ := by
  induction h with
  | done => exact Finset.subset_empty.mp hT
  | @delete S n hn hfew _ ih =>
    by_cases hnT : n ∈ T
    · have h1 := hmany n hnT
      have h2 := Finset.card_le_card (crowd_mono (c := c) (x := n) hT)
      omega
    · exact ih (Finset.subset_erase.mpr ⟨hT, hnT⟩)

section Run

variable (h : Primed c) (he : c.build.Empties c.build.virtualNodes)
include h he

/-- No node has to be chosen for a spill on the way. -/
theorem Primed.not_due_spill {c' : Coloring} {choice : Candidate}
    (ht : c'.Tidy { hard := fun _ => False }) (hs : Since c.build.classify c')
    (hf : c'.Firm fun x y => c.build.classify.interferes x y = true) :
    ¬ c'.Due (.spill choice) := by
  intro hdue
  have hst := ht.stuck_spillable hdue
  have hpre : ∀ x, c'.node x = .precolored ↔ c.build.node x = .precolored := fun x => by
    rw [hs.precolored_iff, h.classified.precolored_iff h.built.even.shape]
  have hsize : c'.size = c.build.size := by
    unfold size
    rw [hs.live, h.classified.live]
  have hempty : (c'.nodes.list .spillable).toFinset = ∅ := by
    refine he.eq_empty (fun x hx => ?_) fun x hx => ?_
    · obtain ⟨-, hlt, hp, -⟩ := hst x hx
      simp only [virtualNodes, Finset.mem_filter, Finset.mem_range]
      exact ⟨hsize ▸ hlt, fun hx' => hp ((hpre x).mpr hx')⟩
    · -- all that crowd around a stuck node did so in the first graph
      obtain ⟨-, -, -, hcard⟩ := hst x hx
      rw [hs.k, h.classified.k] at hcard
      refine hcard.trans (Finset.card_le_card fun y hy => ?_)
      have hold : c.build.classify.interferes x y = true := hf _ hst x hx y hy
      rw [h.classified.interferes_eq] at hold
      simp only [crowd, Finset.mem_filter, Finset.mem_range, hsize, hpre] at hy ⊢
      exact ⟨hy.1, hy.2.1, hold⟩
  have hmem : choice.node ∈ (c'.nodes.list .spillable).toFinset := by
    rw [List.mem_toFinset, ht.shape.mem_list (by decide)]
    exact hdue.2.2.1
  rw [hempty] at hmem
  cases hmem

/-- Nothing is spilled. -/
theorem Primed.spilled_eq_nil : c.run.1.nodes.list .spilled = [] :=
  List.eq_nil_iff_forall_not_mem.mpr fun _ hn => h.hard_of_spilled
    (h.guarded_of fun ht hs hf hdue => h.not_due_spill he ht hs hf hdue) hn

/-- Every node has a color. -/
theorem Primed.exists_color (hx : x < c.size) : ∃ color, c.run.1.colorOf x = some color := by
  refine (h.colored_or_spilled hx).resolve_right fun hmem => ?_
  rw [h.spilled_eq_nil he] at hmem
  cases hmem

end Run

end Codegen.Coloring
