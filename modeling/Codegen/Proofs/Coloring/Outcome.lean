import Codegen.Proofs.Coloring.History

/-!
# Outcomes of runs

What a run can be started on (`Setup`), and what becomes of each node: what was taken out is colored
or spilled, all else stays as it was (`Primed.node_run`). Only nodes that were chosen for a spill are
spilled (`Primed.chosen_of_spilled`), and no node that others were merged into
(`Primed.find_of_coalesced`).
-/

namespace Codegen.Coloring

variable {c c' : Coloring} {i j n x : Nat}

/-! ### What runs start on -/

/-- Some liveness, a number of colors, the nodes that have colors from the start, and the nodes that
were made for spills. -/
structure Setup where
  live : Liveness
  k : Nat
  /-- The machine registers, by their numbers, with their colors. -/
  machine : List (Nat × Nat)
  temporaries : Bitmap
  bounded : live.Bounded
  nodup : (machine.map (·.1)).Nodup
  lt : ∀ p ∈ machine, p.1 < live.regs.size

/-- The coloring that is run. -/
def Setup.coloring (p : Setup) : Coloring :=
  p.machine.foldl (fun c q => c.precolor q.1 q.2) { start p.live p.k with temporaries := p.temporaries }

namespace Setup

theorem painted (p : Setup) :
    Painted p.machine { start p.live p.k with temporaries := p.temporaries } p.coloring :=
  (painted_start p.live p.k p.temporaries).precolorEach p.machine p.nodup p.lt

theorem live_eq (p : Setup) : p.coloring.live = p.live := p.painted.live

theorem k_eq (p : Setup) : p.coloring.k = p.k := p.painted.k

theorem primed (p : Setup) : Primed p.coloring :=
  ⟨p.painted.blank, p.live_eq ▸ p.bounded, p.painted.node⟩

theorem precolored_iff (p : Setup) (n : Nat) :
    p.coloring.node n = .precolored ↔ n ∈ p.machine.map (·.1) := by
  simp [p.painted.node, p.painted.colorOf]

theorem size_eq (p : Setup) : p.coloring.size = p.live.regs.size := by
  unfold size
  rw [p.live_eq]

end Setup

/-! ### The end of a run -/

theorem find_of_merged (hx : c.node x = .coalesced) (hlt : x < c.size)
    (hn : c.node (c.mergedOf x) ≠ .coalesced) : c.find x = c.mergedOf x :=
  (Chain.next hx (.done hn)).findFrom_eq _ (by omega)

namespace Primed

variable (h : Primed c)
include h

/-- What was taken out is colored or spilled in the end, and all else is as it was. -/
theorem node_run (x : Nat) :
    c.reduced.node x = .selected ∧
      (c.run.1.node x = .colored ∧ (∃ color < c.k, c.run.1.colorOf x = some color) ∨
        c.run.1.node x = .spilled ∧ c.run.1.colorOf x = none) ∨
    c.reduced.node x ≠ .selected ∧ c.run.1.node x = c.reduced.node x := by
  obtain ⟨ht, -, -⟩ := h.reduced
  obtain ⟨c', h1, h2, -, -, -, h3⟩ := h.run_spec
  have hnode : c.run.1.node x = c'.node x := by
    unfold Coloring.node
    rw [h2]
  by_cases hsel : c.reduced.node x = .selected
  · left
    have hlt : x < c.reduced.size := ht.shape.lt_of_node (by rw [hsel]; decide)
    rw [hnode, h3 x (h.size_reduced ▸ hlt), find_of_ne (by rw [hsel]; decide), ← h.k_reduced]
    exact ⟨hsel, h1.done x ((ht.shape.mem_list (by decide)).mpr hsel)⟩
  · right
    rw [hnode, h1.node x fun hmem => hsel ((ht.shape.mem_list (by decide)).mp hmem)]
    exact ⟨hsel, rfl⟩

/-- In the end a node is a machine register, or it was merged, colored or spilled. -/
theorem state_run (hx : x < c.size) (hp : c.node x ≠ .precolored) :
    c.run.1.node x = .colored ∨ c.run.1.node x = .spilled ∨ c.run.1.node x = .coalesced := by
  obtain ⟨ht, -, -⟩ := h.reduced
  have hlt : x < c.reduced.size := h.size_reduced.symm ▸ hx
  rcases h.node_run x with ⟨-, ⟨hn, -⟩ | ⟨hn, -⟩⟩ | ⟨hsel, hn⟩
  · exact Or.inl hn
  · exact Or.inr (Or.inl hn)
  · rw [hn]
    by_contra hco
    simp only [not_or] at hco
    exact hp ((h.precolored_reduced x).mp
      (ht.precolored_of_finished h.next?_reduced hlt ⟨hsel, hco.2.2⟩))

/-! ### What is spilled -/

/-- A spilled node was taken out with too many neighbours. -/
theorem takenHeavy_of_spilled (hn : c.run.1.node n = .spilled) :
    ∃ i, c.build.classify.TakenHeavy i n := by
  obtain ⟨i, -, hi⟩ := exists_after_reduced c
  exact ⟨i, h.hard_of_spilled (h.known hi).guarded ((h.wf_run.mem_list_of_ne (by decide)).mpr hn)⟩

/-- A node is taken out with too many neighbours only after it was chosen for a spill. -/
theorem chosen_of_takenHeavy (hn : c.build.classify.TakenHeavy i n) : c.build.classify.Chosen i n := by
  obtain ⟨j, hj, c', ⟨hc', hs⟩, hdeg⟩ := hn
  have hknown := h.known hc'
  rcases hknown.tidy.ready (hknown.tidy.shape.due hs) (by simp) with hlight | hchosen
  · omega
  · exact hchosen.mono (by omega)

theorem chosen_of_spilled (hn : c.run.1.node n = .spilled) : ∃ i, c.build.classify.Chosen i n := by
  obtain ⟨i, hi⟩ := h.takenHeavy_of_spilled hn
  exact ⟨i, h.chosen_of_takenHeavy hi⟩

/-- No node is taken out twice. -/
theorem takesOut_unique {c₁ c₂ : Coloring} (h₁ : c.build.classify.TakesOut i c₁ n)
    (h₂ : c.build.classify.TakesOut j c₂ n) : c₁ = c₂ := by
  have hold : ∀ {i j c₁ c₂}, c.build.classify.TakesOut i c₁ n → c.build.classify.TakesOut j c₂ n →
      ¬ i < j := by
    intro i j c₁ c₂ h₁ h₂ hij
    have hknown := h.known h₂.1
    have hdue : c₂.node n = .removable := hknown.tidy.shape.due h₂.2
    rw [hknown.gone i hij c₁ n h₁] at hdue
    cases hdue
  have hij : i = j := by
    have := hold h₁ h₂
    have := hold h₂ h₁
    omega
  subst hij
  exact Option.some.inj (h₁.1.symm.trans h₂.1)

/-- A node that is taken out with few neighbours gets a color. -/
theorem colored_of_takesOut (hn : c.build.classify.TakesOut i c' n) (hdeg : c'.degreeOf n < c.k) :
    c.run.1.node n = .colored ∧ ∃ color < c.k, c.run.1.colorOf n = some color := by
  have hsel : c.reduced.node n = .selected := by
    obtain ⟨e, -, he⟩ := exists_after_reduced c
    exact (h.known he).gone i (lt_of_next?_eq_none he h.next?_reduced hn.1 hn.2) c' n hn
  rcases h.node_run n with ⟨-, hcolored | ⟨hsp, -⟩⟩ | ⟨hns, -⟩
  · exact hcolored
  · obtain ⟨e, j, -, c₂, hn₂, hheavy⟩ := h.takenHeavy_of_spilled hsp
    obtain rfl := h.takesOut_unique hn hn₂
    rw [h.k_since (h.known hn.1).since] at hheavy
    omega
  · exact absurd hsel hns

/-- What stands for a merged node has a color in the end. -/
theorem find_of_coalesced (hx : c.run.1.node x = .coalesced) :
    c.run.1.node (c.run.1.find x) = .precolored ∨ c.run.1.node (c.run.1.find x) = .colored := by
  obtain ⟨ht, -, -⟩ := h.reduced
  have hmerged : c.reduced.node x = .coalesced :=
    h.mem_coalesced_run.mp ((h.wf_run.mem_list_of_ne (by decide)).mpr hx)
  have hlt : x < c.reduced.size := ht.shape.lt_of_node (by rw [hmerged]; decide)
  have hfind : c.reduced.find x < c.size := h.size_reduced ▸ ht.finds.find_lt ht.shape hlt
  rw [h.find_run]
  by_cases hp : c.node (c.reduced.find x) = .precolored
  · left
    have hp' := (h.precolored_reduced _).mpr hp
    rcases h.node_run (c.reduced.find x) with ⟨hsel, -⟩ | ⟨-, hn⟩
    · rw [hp'] at hsel
      cases hsel
    · rw [hn, hp']
  · rcases h.state_run hfind hp with hn | hn | hn
    · exact Or.inr hn
    · -- what is spilled was chosen, and what others were merged into never is
      obtain ⟨e, -, he⟩ := exists_after_reduced c
      obtain ⟨i, hi⟩ := h.chosen_of_spilled hn
      obtain ⟨j, hj, c', choice, hc', hs, hnode⟩ := hi
      have hje : j < e := lt_of_next?_eq_none he h.next?_reduced hc' hs
      exact absurd ⟨j, hje, c', choice, hc', hs, hnode⟩ ((h.known he).apart x hlt hmerged).1
    · have hco := h.mem_coalesced_run.mp ((h.wf_run.mem_list_of_ne (by decide)).mpr hn)
      exact absurd hco (ht.finds.node_find ht.shape hlt)

/-- A spilled node stands for itself only. -/
theorem eq_of_find_spilled (hn : c.run.1.node (c.run.1.find x) = .spilled) :
    c.run.1.find x = x := by
  refine find_of_ne fun hco => ?_
  rcases h.find_of_coalesced hco with hf | hf <;> rw [hn] at hf <;> cases hf

end Primed

end Codegen.Coloring
