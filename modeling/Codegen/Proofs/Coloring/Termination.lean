import Codegen.Proofs.Coloring.Run
import Mathlib.Algebra.Order.BigOperators.Group.Finset

/-!
# Runs come to an end

A node is prepared and taken out of the graph at most once, and between two such steps every move is
looked at no more than once. So the bound on the steps is never reached (`Primed.next?_reduced`), and
every node gets a color or is spilled (`Primed.colored_or_spilled`).
-/

namespace Codegen

/-- The steps that are still to be taken for a node. -/
def NodeState.work : NodeState → Nat
  | .freezeable | .spillable => 2
  | .removable => 1
  | _ => 0

theorem NodeState.work_le (s : NodeState) : s.work ≤ 2 := by
  cases s <;> decide

namespace Coloring

variable {c c' : Coloring} {H : Nat → Prop} {m n u v x : Nat}

/-! ### What is left to do -/

theorem Slides.work_le {s s' : NodeState} (h : Slides s s') : s'.work ≤ s.work := by
  rcases h with rfl | ⟨rfl | rfl, -⟩
  · rfl
  · exact s'.work_le
  · exact s'.work_le

/-- The steps that are still to be taken for all nodes. -/
def work (c : Coloring) : Nat := ∑ n ∈ Finset.range c.size, (c.node n).work

/-- A bound on the steps still to come: before each step for a node, every move may be looked at. -/
def potential (c : Coloring) : Nat :=
  c.work * (c.live.refs.size + 1) + (c.moves.list .coalescable).length

theorem work_le (hsize : c'.size = c.size)
    (hle : ∀ x, (c'.node x).work ≤ (c.node x).work) : c'.work ≤ c.work := by
  unfold work
  rw [hsize]
  exact Finset.sum_le_sum fun x _ => hle x

theorem work_lt (hsize : c'.size = c.size) (hn : n < c.size)
    (hle : ∀ x, x ≠ n → (c'.node x).work ≤ (c.node x).work)
    (hlt : (c'.node n).work < (c.node n).work) : c'.work < c.work := by
  unfold work
  rw [hsize]
  refine Finset.sum_lt_sum (fun x _ => ?_) ⟨n, Finset.mem_range.mpr hn, hlt⟩
  by_cases hx : x = n
  · rw [hx]
    exact hlt.le
  · exact hle x hx

theorem work_le_size (c : Coloring) : c.work ≤ 2 * c.size := by
  calc c.work ≤ ∑ _n ∈ Finset.range c.size, 2 := Finset.sum_le_sum fun _ _ => NodeState.work_le _
    _ = 2 * c.size := by rw [Finset.sum_const_nat fun _ _ => rfl, Finset.card_range, Nat.mul_comm]

/-- No more moves are waiting to be looked at than there are instructions. -/
theorem Shape.length_coalescable_le (h : c.Shape) :
    (c.moves.list .coalescable).length ≤ c.live.refs.size := by
  rw [← List.toFinset_card_of_nodup (h.moves.nodup .coalescable), ← Finset.card_range c.live.refs.size]
  refine Finset.card_le_card fun m hm => ?_
  exact Finset.mem_range.mpr (h.moves.mem_list.mp (List.mem_toFinset.mp hm)).1

/-- A step for a node outweighs whatever moves are to be looked at again. -/
theorem Shape.potential_lt (h' : c'.Shape) (hk : Keeps c c') (hw : c'.work < c.work) :
    c'.potential < c.potential := by
  have hlen := h'.length_coalescable_le
  have hmul : (c'.work + 1) * (c.live.refs.size + 1) ≤ c.work * (c.live.refs.size + 1) :=
    Nat.mul_le_mul_right _ hw
  unfold potential
  rw [hk.live] at hlen ⊢
  rw [Nat.succ_mul] at hmul
  omega

/-! ### Every step is one of the last -/

theorem Decides.length_coalescable_lt (h : Decides m c c') (hs : c.Shape) (hs' : c'.Shape) :
    (c'.moves.list .coalescable).length < (c.moves.list .coalescable).length := by
  rw [← List.toFinset_card_of_nodup (hs.moves.nodup .coalescable),
    ← List.toFinset_card_of_nodup (hs'.moves.nodup .coalescable)]
  have hmem : ∀ x, x ∈ (c.moves.list .coalescable).toFinset ↔ c.move x = .coalescable := fun x => by
    rw [List.mem_toFinset, hs.mem_moves (by decide)]
  have hmem' : ∀ x, x ∈ (c'.moves.list .coalescable).toFinset ↔ c'.move x = .coalescable :=
    fun x => by rw [List.mem_toFinset, hs'.mem_moves (by decide)]
  refine Finset.card_lt_card ⟨fun x hx => ?_, fun hsub => ?_⟩
  · rw [hmem'] at hx
    have hxm : x ≠ m := by
      rintro rfl
      exact h.new hx
    rw [hmem, ← h.move x hxm]
    exact hx
  · exact h.new ((hmem' m).mp (hsub ((hmem m).mpr h.old)))

theorem Releases.work_lt (h : Releases n c c') (hs : c.Shape) : c'.work < c.work := by
  have hlt : n < c.size := hs.lt_of_node (by rcases h.old with h | h <;> rw [h] <;> decide)
  refine Coloring.work_lt h.toSorts.size hlt (fun x _ => (h.node x).work_le) ?_
  rw [h.new]
  rcases h.old with h | h <;> rw [h] <;> decide

theorem Merges.work_lt (h : Merges u v c c') (ht : c.Tidy { hard := H }) : c'.work < c.work := by
  refine Coloring.work_lt h.size h.mergeable.lt_right (fun x hx => (h.node x hx).work_le) ?_
  rw [h.new]
  obtain ⟨h1, h2, h3⟩ := ht.states h.mergeable.lt_right
  have h4 := h.mergeable.inGraph_right
  have h5 := h.mergeable.right_ne_precolored
  unfold InGraph at h4
  cases hst : c.node v <;> simp_all [NodeState.work]

/-- Every step leaves less to do. -/
theorem Change.potential_lt {s : Step} (h : Change c s c') (ht : c.Tidy { hard := H })
    (hs' : c'.Shape) : c'.potential < c.potential := by
  have hk := h.keeps
  cases s with
  | simplify n =>
    have hr : Removes n c c' := h
    refine hs'.potential_lt hk (Coloring.work_lt hk.size ?_ (fun x hx => (hr.node x hx).work_le) ?_)
    · exact ht.shape.lt_of_node (by rw [hr.old]; decide)
    · rw [hr.new, hr.old]
      decide
  | coalesce m =>
    rcases h with hd | ⟨-, u, v, hm⟩
    · have hw := work_le hk.size fun x => (hd.node x).work_le
      have hlen := hd.length_coalescable_lt ht.shape hs'
      have hmul := Nat.mul_le_mul_right (c.live.refs.size + 1) hw
      unfold potential
      rw [hk.live]
      omega
    · exact hs'.potential_lt hk (hm.work_lt ht)
  | freeze n => exact hs'.potential_lt hk (Releases.work_lt h ht.shape)
  | spill choice => exact hs'.potential_lt hk (h.1.work_lt ht.shape)

/-- With enough steps allowed, the graph is taken apart until no step is left. -/
theorem Tidy.next?_reduce (ht : c.Tidy {}) (fuel : Nat) (log : Array Event)
    (hfuel : c.potential ≤ fuel) : (reduce fuel c log).1.next? = none := by
  induction fuel generalizing c log with
  | zero =>
    show c.next? = none
    cases hs : c.next? with
    | none => rfl
    | some s =>
      obtain ⟨h1, h2⟩ := ht.step hs fun _ _ => trivial
      have := h2.potential_lt ht h1.shape
      omega
  | succ fuel ih =>
    unfold reduce
    cases hs : c.next? with
    | none => exact hs
    | some s =>
      obtain ⟨h1, h2⟩ := ht.step hs fun _ _ => trivial
      have := h2.potential_lt ht h1.shape
      exact ih h1 _ (by omega)

/-! ### The end of a run -/

/-- A coloring without a next step has no node that is still to be taken out. -/
theorem Shape.finished (h : c.Shape) (hnext : c.next? = none) :
    c.node n ≠ .removable ∧ c.node n ≠ .freezeable ∧ c.node n ≠ .spillable := by
  have hlists : c.nodes.list .removable = [] ∧ c.nodes.list .freezeable = [] ∧
      c.nodes.list .spillable = [] := by
    unfold next? at hnext
    split at hnext
    · cases hnext
    · cases hnext
    · cases hnext
    · rename_i h1 _ h3
      refine ⟨h1, h3, ?_⟩
      cases hl : c.nodes.list .spillable with
      | nil => rfl
      | cons n rest =>
        rw [candidates, hl] at hnext
        cases hnext
  have hnone : ∀ {s : NodeState}, s ≠ .unprocessed → c.nodes.list s = [] → c.node n ≠ s := by
    intro s hs hl hn
    have hmem := (h.mem_list hs).mpr hn
    rw [hl] at hmem
    cases hmem
  exact ⟨hnone (by decide) hlists.1, hnone (by decide) hlists.2.1, hnone (by decide) hlists.2.2⟩

/-- What was neither taken out nor merged in the end is a machine register. -/
theorem Tidy.precolored_of_finished (ht : c.Tidy { hard := H }) (hnext : c.next? = none)
    (hn : n < c.size) (hin : c.InGraph n) : c.node n = .precolored := by
  obtain ⟨h1, h2, h3⟩ := ht.states hn
  obtain ⟨h4, h5, h6⟩ := ht.shape.finished (n := n) hnext
  unfold InGraph at hin
  cases hst : c.node n <;> simp_all

namespace Primed

variable (h : Primed c)
include h

/-- The bound on the steps is large enough for all of them. -/
theorem next?_reduced : c.reduced.next? = none := by
  refine (h.tidy_classify (H := fun _ => True)).next?_reduce _ _ ?_
  have hw := Nat.mul_le_mul_right (c.build.classify.live.refs.size + 1)
    (work_le_size c.build.classify)
  have hlen := h.classified.shape.length_coalescable_le
  unfold potential stepBound
  rw [Nat.succ_mul]
  omega

/-- In the end every register has a color, unless the one that stands for it is spilled. -/
theorem colored_or_spilled (hx : x < c.size) : (∃ color, c.run.1.colorOf x = some color) ∨
    c.reduced.find x ∈ c.run.1.nodes.list .spilled := by
  obtain ⟨ht, -, -⟩ := h.reduced
  obtain ⟨c', h1, hnodes, -, -, -, h3⟩ := h.run_spec
  have hx' : x < c.reduced.size := h.size_reduced.symm ▸ hx
  have hlt := ht.finds.find_lt ht.shape hx'
  have hnc := ht.finds.node_find ht.shape hx'
  rw [h3 x hx, hnodes, h1.shape.mem_list (by decide)]
  by_cases hsel : c.reduced.find x ∈ c.reduced.nodes.list .selected
  · rcases h1.done _ hsel with ⟨-, color, -, hc⟩ | ⟨hs, -⟩
    · exact Or.inl ⟨color, hc⟩
    · exact Or.inr hs
  · left
    rw [h1.color _ hsel]
    rw [ht.shape.mem_list (by decide)] at hsel
    exact (h.machine_reduced _).mp
      (ht.precolored_of_finished h.next?_reduced hlt ⟨hsel, hnc⟩)

end Primed

end Coloring

end Codegen
