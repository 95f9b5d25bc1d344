import Codegen.Proofs.Coloring.Run

/-!
# Stuck nodes

A set of nodes is stuck if each of them has at least as many neighbours as there are colors among the
set and the machine registers. Mergers are made such that they never add an edge between stuck nodes
(`Firm`), and a node that is taken out with fewer neighbours than colors finds a color
(`Guarded`). So nodes that are never stuck in the first graph are never spilled
(`Primed.not_spilled`).
-/

namespace Codegen.Coloring

open List

variable {c c' c₁ : Coloring} {E : Nat → Nat → Prop} {H H' : Nat → Prop} {S : Finset Nat}
  {n t u v x y : Nat}

/-! ### Sets of stuck nodes -/

/-- The neighbours of a node in a set or among the machine registers. -/
def crowd (c : Coloring) (S : Finset Nat) (x : Nat) : Finset Nat :=
  (Finset.range c.size).filter fun y =>
    (y ∈ S ∨ c.node y = .precolored) ∧ c.interferes x y = true

theorem mem_crowd (hg : c.IsGraph) : y ∈ c.crowd S x ↔
    (y ∈ S ∨ c.node y = .precolored) ∧ c.interferes x y = true := by
  simp only [crowd, Finset.mem_filter, Finset.mem_range, and_iff_right_iff_imp]
  exact fun h => hg.lt_right h.2

/-- Nodes that keep each other in the graph. -/
def Stuck (c : Coloring) (S : Finset Nat) : Prop :=
  ∀ x ∈ S, c.InGraph x ∧ x < c.size ∧ c.node x ≠ .precolored ∧ c.k ≤ (c.crowd S x).card

/-- The edges between stuck nodes, or from those to machine registers, are old ones. -/
def Firm (E : Nat → Nat → Prop) (c : Coloring) : Prop :=
  ∀ S, c.Stuck S → ∀ x ∈ S, ∀ y ∈ c.crowd S x, E x y

/-- A stuck node has as many neighbours in the graph as there are colors. -/
theorem Stuck.le_length (hst : c.Stuck S) (hg : c.IsGraph) (hx : x ∈ S) :
    c.k ≤ (c.adjacent x).length := by
  obtain ⟨-, hlt, hp, hk⟩ := hst x hx
  refine hk.trans (le_trans (Finset.card_le_card fun y hy => ?_) (toFinset_card_le _))
  obtain ⟨hy, hi⟩ := (mem_crowd hg).mp hy
  rw [mem_toFinset, hg.mem_adjacent hlt hp]
  refine ⟨hi, ?_⟩
  rcases hy with hy | hy
  · exact (hst y hy).1
  · simp [InGraph, hy]

/-- Stuck nodes were stuck before if they were in the graph and their crowds were no smaller. -/
theorem Stuck.of_subset (hst : c'.Stuck S) (hsize : c'.size = c.size) (hk : c'.k = c.k)
    (hpre : ∀ x, c'.node x = .precolored ↔ c.node x = .precolored)
    (hin : ∀ x, c'.InGraph x → c.InGraph x) (hsub : ∀ x ∈ S, c'.crowd S x ⊆ c.crowd S x) :
    c.Stuck S := by
  intro x hx
  obtain ⟨h1, h2, h3, h4⟩ := hst x hx
  exact ⟨hin x h1, hsize ▸ h2, fun hp => h3 ((hpre x).mpr hp),
    hk ▸ h4.trans (Finset.card_le_card (hsub x hx))⟩

theorem crowd_subset (hsize : c'.size = c.size)
    (hpre : ∀ x, c'.node x = .precolored ↔ c.node x = .precolored)
    (hint : ∀ x y, c'.interferes x y = c.interferes x y) : c'.crowd S x ⊆ c.crowd S x := by
  intro y hy
  simpa [crowd, hsize, hpre, hint] using hy

/-! ### Mergers and stuck nodes -/

section Merge

variable (hm : Merges u v c c') (ht : c.Tidy { hard := H }) (ht' : c'.Tidy { hard := H' })
include hm ht ht'

/-- A merger leaves no other node with more neighbours. -/
theorem Merges.length_adjacent_le (hy : y < c.size) (hyp : c.node y ≠ .precolored) (hyu : y ≠ u) :
    (c'.adjacent y).length ≤ (c.adjacent y).length := by
  have hyp' : c'.node y ≠ .precolored := fun hp => hyp ((hm.precolored_iff y).mp hp)
  have hsub : (c'.adjacent y).toFinset ⊆
      (c.adjacent y).toFinset.image fun z => if z = v then u else z := by
    intro z hz
    rw [mem_toFinset, ht'.graph.mem_adjacent (hm.size.symm ▸ hy) hyp', hm.inGraph_iff] at hz
    obtain ⟨hi, hz, hzv⟩ := hz
    rw [Finset.mem_image]
    rcases hm.interferes.mp hi with hi | ⟨hin, rfl⟩ | ⟨rfl, -⟩
    · exact ⟨z, mem_toFinset.mpr ((ht.graph.mem_adjacent hy hyp).mpr ⟨hi, hz⟩), if_neg hzv⟩
    · have hvy := ((ht.graph.mem_adjacent hm.mergeable.lt_right
        hm.mergeable.right_ne_precolored).mp hin).1
      exact ⟨v, mem_toFinset.mpr ((ht.graph.mem_adjacent hy hyp).mpr
        ⟨ht.graph.symm hvy, hm.mergeable.inGraph_right⟩), if_pos rfl⟩
    · exact absurd rfl hyu
  calc (c'.adjacent y).length = (c'.adjacent y).toFinset.card :=
        (toFinset_card_of_nodup ht'.graph.nodup_adjacent).symm
    _ ≤ _ := Finset.card_le_card hsub
    _ ≤ (c.adjacent y).toFinset.card := Finset.card_image_le
    _ ≤ (c.adjacent y).length := toFinset_card_le _

/-- A node other than `u` that is stuck after a merger had as many neighbours before. -/
theorem Merges.le_degreeOf (hst : c'.Stuck S) (hx : x ∈ S) (hxu : x ≠ u) :
    (c.k : Int) ≤ c.degreeOf x := by
  obtain ⟨h1, h2, h3, -⟩ := hst x hx
  have hlt : x < c.size := hm.size ▸ h2
  have hp : c.node x ≠ .precolored := fun hp => h3 ((hm.precolored_iff x).mpr hp)
  have hk := hst.le_length ht'.graph hx
  have hle := hm.length_adjacent_le ht ht' hlt hp hxu
  rw [ht.degree hlt hp ((hm.inGraph_iff x).mp h1).1]
  rw [hm.k] at hk
  simp only [Slack.excess, not_mem_nil, if_false]
  omega

/-- The node that others are merged into is not stuck afterwards. -/
theorem Merges.not_mem_stuck (hst : c'.Stuck S) : u ∉ S := by
  intro huS
  obtain ⟨-, -, hup, hcard⟩ := hst u huS
  have hmach : c.isMachine u = false := by
    rw [Bool.eq_false_iff]
    exact fun h => hup ((hm.precolored_iff u).mpr (isMachine_iff.mp h))
  rcases hm.safe with ⟨h, -⟩ | ⟨-, hsafe⟩
  · rw [hmach] at h
    cases h
  -- all that crowd around it are neighbours that can stand in the way
  have hsub : c'.crowd S u ⊆
      ((eachOnce (c.adjacent u ++ c.adjacent v)).filter c.isSignificant).toFinset := by
    intro y hy
    obtain ⟨hy, hi⟩ := (mem_crowd ht'.graph).mp hy
    have hyu : y ≠ u := (ht'.graph.ne hi).symm
    have hin : c.InGraph y := by
      rcases hy with hy | hy
      · exact ((hm.inGraph_iff y).mp (hst y hy).1).1
      · have := (hm.precolored_iff y).mp hy
        simp [InGraph, this]
    rw [mem_toFinset, mem_filter]
    constructor
    · unfold eachOnce
      rw [Flow.mem_foldl_insertNew, mem_append]
      right
      rcases hm.interferes.mp hi with hi | ⟨-, rfl⟩ | ⟨-, hin⟩
      · have hup' : c.node u ≠ .precolored := fun hp => hup ((hm.precolored_iff u).mpr hp)
        exact Or.inl ((ht.graph.mem_adjacent hm.mergeable.lt_left hup').mpr ⟨hi, hin⟩)
      · exact absurd rfl hyu
      · exact Or.inr hin
    · unfold isSignificant
      rw [Bool.or_eq_true, decide_eq_true_eq]
      rcases hy with hy | hy
      · exact Or.inr (hm.le_degreeOf ht ht' hst hy hyu)
      · exact Or.inl (isMachine_iff.mpr ((hm.precolored_iff y).mp hy))
  have hlen : ((eachOnce (c.adjacent u ++ c.adjacent v)).filter c.isSignificant).length < c.k := by
    simpa [safeTogether] using hsafe
  have h1 := Finset.card_le_card hsub
  have h2 := toFinset_card_le
    ((eachOnce (c.adjacent u ++ c.adjacent v)).filter c.isSignificant)
  rw [hm.k] at hcard
  omega

/-- A merger adds no edge between stuck nodes. -/
theorem Merges.crowd_subset (hst : c'.Stuck S) (hx : x ∈ S) : c'.crowd S x ⊆ c.crowd S x := by
  intro y hy
  obtain ⟨hy, hi⟩ := (mem_crowd ht'.graph).mp hy
  have hxu : x ≠ u := fun h => hm.not_mem_stuck ht ht' hst (h ▸ hx)
  refine (mem_crowd ht.graph).mpr ⟨hy.imp id (hm.precolored_iff y).mp, ?_⟩
  rcases hm.interferes.mp hi with hi | ⟨hin, rfl⟩ | ⟨rfl, -⟩
  · exact hi
  · -- an edge to a machine register is added only for nodes with few neighbours
    have hmach : c.isMachine y = true := by
      rcases hy with hy | hy
      · exact absurd hy (hm.not_mem_stuck ht ht' hst)
      · exact isMachine_iff.mpr ((hm.precolored_iff y).mp hy)
    rcases hm.safe with ⟨-, hsafe⟩ | ⟨h, -⟩
    · have hall := all_eq_true.mp hsafe x hin
      simp only [Bool.or_eq_true, decide_eq_true_eq] at hall
      rcases hall with (hlow | hpre) | hi
      · have := hm.le_degreeOf ht ht' hst hx hxu
        omega
      · exact absurd ((hm.precolored_iff x).mpr (isMachine_iff.mp hpre)) (hst x hx).2.2.1
      · exact hi
    · rw [hmach] at h
      cases h
  · exact absurd rfl hxu

end Merge

/-- Nodes that are stuck after a step were stuck before, in a crowd that was no smaller. -/
theorem Change.stuck {s : Step} (hch : Change c s c') (ht : c.Tidy { hard := H })
    (ht' : c'.Tidy { hard := H' }) (hst : c'.Stuck S) :
    c.Stuck S ∧ ∀ x ∈ S, c'.crowd S x ⊆ c.crowd S x := by
  have hk := hch.keeps
  have hpre := hch.precolored_iff
  have hboth : (∀ x, c'.InGraph x → c.InGraph x) → (∀ x ∈ S, c'.crowd S x ⊆ c.crowd S x) →
      c.Stuck S ∧ ∀ x ∈ S, c'.crowd S x ⊆ c.crowd S x := fun hin hsub =>
    ⟨hst.of_subset hk.size hk.k hpre hin hsub, hsub⟩
  have hsift : Sifts c c' → _ := fun hs => hboth (fun x hx => hs.inGraph_iff.mp hx) fun x _ =>
    crowd_subset hk.size hpre hs.interferes_eq
  cases s with
  | simplify n =>
    have hr : Removes n c c' := hch
    exact hboth (fun x hx => ((hr.inGraph_iff x).mp hx).1) fun x _ =>
      crowd_subset hk.size hpre hr.interferes
  | coalesce m =>
    rcases hch with hd | ⟨-, u, v, hm⟩
    · exact hsift hd.toSifts
    · exact hboth (fun x hx => ((hm.inGraph_iff x).mp hx).1) fun x hx =>
        hm.crowd_subset ht ht' hst hx
  | freeze n => exact hsift (Releases.toSifts hch)
  | spill choice => exact hsift hch.1.toSifts

/-- Every step keeps the edges between stuck nodes old. -/
theorem Firm.step {s : Step} (h : c.Firm E) (hch : Change c s c') (ht : c.Tidy { hard := H })
    (ht' : c'.Tidy { hard := H' }) : c'.Firm E := by
  intro S hst x hx y hy
  obtain ⟨h1, h2⟩ := hch.stuck ht ht' hst
  exact h S h1 x hx y (h2 x hx hy)

/-! ### The choice of a node to be spilled -/

/-- When a node is to be chosen, all nodes in the graph that are no machine registers are stuck. -/
theorem Tidy.stuck_spillable (ht : c.Tidy { hard := H }) {choice : Candidate}
    (hdue : c.Due (.spill choice)) : c.Stuck (c.nodes.list .spillable).toFinset := by
  obtain ⟨hnone, -, -⟩ := hdue
  have hmem : ∀ x, x ∈ (c.nodes.list .spillable).toFinset ↔ c.node x = .spillable := fun x => by
    rw [mem_toFinset, ht.shape.mem_list (by decide)]
  intro x hx
  have hsp := (hmem x).mp hx
  have hlt : x < c.size := ht.shape.lt_of_node (by rw [hsp]; decide)
  have hp : c.node x ≠ .precolored := by rw [hsp]; decide
  have hin : c.InGraph x := ⟨by rw [hsp]; decide, by rw [hsp]; decide⟩
  refine ⟨hin, hlt, hp, ?_⟩
  have hdeg := ht.spillable hsp
  rw [ht.degree hlt hp hin] at hdeg
  simp only [Slack.excess, not_mem_nil, if_false] at hdeg
  have hle : (c.adjacent x).length ≤ (c.crowd (c.nodes.list .spillable).toFinset x).card := by
    rw [← toFinset_card_of_nodup (ht.graph.nodup_adjacent (a := x))]
    refine Finset.card_le_card fun y hy => ?_
    rw [mem_toFinset, ht.graph.mem_adjacent hlt hp] at hy
    refine (mem_crowd ht.graph).mpr ⟨?_, hy.1⟩
    rw [hmem]
    obtain ⟨h1, h2, h3⟩ := ht.states (ht.graph.lt_right hy.1)
    have h4 := hnone y
    have h5 := hy.2
    unfold InGraph at h5
    cases hst : c.node y <;> simp_all
  omega

/-- A node whose cost has no bound although it may be spilled was made for a spill. -/
theorem Tidy.temporary_of_infinite (ht : c.Tidy { hard := H }) (hk : 0 < c.k)
    (hn : c.node n = .spillable) (hc : c.cost n = .infinite) : c.temporaries.contains n = true := by
  by_contra htemp
  have hdeg := ht.spillable hn
  simp only [cost, htemp, if_false] at hc
  split at hc
  · -- the degree stands in where no first degree is known
    rw [if_neg (by omega)] at hc
    cases hc
  · cases hc

/-- The registers made for spills are few enough around each of them: that one is not chosen. -/
theorem Firm.choice_not_temporary (h : c.Firm E) (ht : c.Tidy { hard := H }) (hk : 0 < c.k)
    (hfit : ∀ x, c.temporaries.contains x = true → ∀ F : Finset Nat,
      (∀ y ∈ F, (c.temporaries.contains y = true ∨ c.node y = .precolored) ∧ E x y) →
      F.card < c.k)
    {choice : Candidate} (hdue : c.Due (.spill choice)) :
    c.temporaries.contains choice.node = false := by
  have hst := ht.stuck_spillable hdue
  obtain ⟨-, -, hsp, hcost, hall⟩ := hdue
  rw [Bool.eq_false_iff]
  intro htemp
  have hinf : choice.cost = .infinite := by
    rw [hcost]
    simp [cost, htemp]
  have hmem : choice.node ∈ (c.nodes.list .spillable).toFinset := by
    rw [mem_toFinset, ht.shape.mem_list (by decide)]
    exact hsp
  have hlt := hfit choice.node htemp _ fun y hy => by
    refine ⟨((mem_crowd ht.graph).mp hy).1.imp (fun hyS => ?_) id, h _ hst _ hmem y hy⟩
    rw [mem_toFinset, ht.shape.mem_list (by decide)] at hyS
    exact ht.temporary_of_infinite hk hyS (hall hinf y hyS)
  have := (hst _ hmem).2.2.2
  omega

/-! ### Nodes that find a color -/

/-- A node that was taken out had fewer neighbours than there are colors, unless it may be spilled.
Those that left before it do not count. -/
def Guarded (hard : Nat → Prop) (c : Coloring) : Prop :=
  ∀ A n B, c.nodes.list .selected = A ++ n :: B →
    hard n ∨ (((c.neighboursOf n).map c.find).toFinset \ A.toFinset).card < c.k

/-- The nodes that stand for the neighbours of a node, if still there, are its neighbours. -/
theorem Tidy.covered_subset (ht : c.Tidy { hard := H }) (hsep : c.Separated)
    (hn : c.node n = .removable) :
    ((c.neighboursOf n).map c.find).toFinset \ (c.nodes.list .selected).toFinset ⊆
      (c.adjacent n).toFinset := by
  have hlt : n < c.size := ht.shape.lt_of_node (by rw [hn]; decide)
  have hp : c.node n ≠ .precolored := by rw [hn]; decide
  have hns : c.node n ≠ .selected := by rw [hn]; decide
  have hfn : c.find n = n := find_of_ne (by rw [hn]; decide)
  intro q hq
  rw [Finset.mem_sdiff, mem_toFinset, mem_toFinset, mem_map,
    ht.shape.mem_list (by decide)] at hq
  obtain ⟨⟨t, htn, rfl⟩, hsel⟩ := hq
  have hi := (ht.graph.mem_neighboursOf hlt hp).mp htn
  have hs := hsep n t hi
  rw [hfn] at hs
  rw [mem_toFinset, ht.graph.mem_adjacent hlt hp]
  obtain ⟨-, hs | ⟨hs, -⟩ | ⟨hs, -⟩⟩ := hs
  · exact ⟨hs, hsel, ht.finds.node_find ht.shape (ht.graph.lt_right hi)⟩
  · exact absurd (ht.shape.selected_of_leavesBefore hs) hns
  · exact absurd (ht.shape.selected_of_leavesBefore hs) hsel

theorem Guarded.remove (h : c.Guarded H) (hr : Removes n c c') (ht : c.Tidy { hard := H' })
    (hsep : c.Separated) (hready : c.degreeOf n < c.k ∨ H n) : c'.Guarded H := by
  have hmap : ∀ x, (c'.neighboursOf x).map c'.find = (c.neighboursOf x).map c.find := by
    intro x
    rw [hr.neighboursOf]
    exact map_congr_left fun y _ => hr.find y
  intro A x B hl
  rw [hr.selected] at hl
  rw [hmap, hr.k]
  rcases eq_nil_or_concat B with rfl | ⟨B', y, rfl⟩
  · obtain ⟨rfl, hx⟩ := append_inj' hl rfl
    cases hx
    have hlt : n < c.size := ht.shape.lt_of_node (by rw [hr.old]; decide)
    rcases hready with hd | hd
    · right
      have hdeg := ht.degree hlt (by rw [hr.old]; decide)
        ⟨by rw [hr.old]; decide, by rw [hr.old]; decide⟩
      simp only [Slack.excess, not_mem_nil, if_false] at hdeg
      have h1 := Finset.card_le_card (ht.covered_subset hsep hr.old)
      have h2 := toFinset_card_le (c.adjacent n)
      omega
    · exact Or.inl hd
  · have hl' : c.nodes.list .selected ++ [n] = (A ++ x :: B') ++ [y] := by simpa using hl
    obtain ⟨hl1, -⟩ := append_inj' hl' rfl
    exact h A x B' hl1

theorem Guarded.merge {H'' : Nat → Prop} (h : c.Guarded H) (hm : Merges u v c c')
    (ht : c.Tidy { hard := H' }) (ht' : c'.Tidy { hard := H'' }) : c'.Guarded H := by
  intro A n B hl
  rw [hm.selected] at hl
  refine (h A n B hl).imp id fun hcard => ?_
  have hsel : ∀ x ∈ A ++ n :: B, c.node x = .selected := fun x hx =>
    (ht.shape.mem_list (by decide)).mp (hl ▸ hx)
  have hn := hsel n (by simp)
  have hnv : n ≠ v := by
    rintro rfl
    exact hm.mergeable.right_ne_selected hn
  have hlt : n < c.size := ht.shape.lt_of_node (by rw [hn]; decide)
  have hnb : ∀ t, t ∈ c'.neighboursOf n → t ∈ c.neighboursOf n := by
    intro t htn
    have hn' : c'.node n ≠ .precolored := by
      rw [(hm.selected_iff hnv).mpr hn]
      decide
    have hi := (ht'.graph.mem_neighboursOf (hm.size.symm ▸ hlt) hn').mp htn
    rw [ht.graph.mem_neighboursOf hlt (by rw [hn]; decide)]
    -- what is out of the graph gets no new edges
    rcases hm.interferes.mp hi with hi | ⟨hin, -⟩ | ⟨rfl, -⟩
    · exact hi
    · exact absurd hn (mem_adjacent.mp hin).2.1
    · exact absurd hn hm.mergeable.inGraph_left.1
  have hsub : ((c'.neighboursOf n).map c'.find).toFinset \ A.toFinset ⊆
      (((c.neighboursOf n).map c.find).toFinset \ A.toFinset).image
        fun q => if q = v then u else q := by
    intro q hq
    rw [Finset.mem_sdiff, mem_toFinset, mem_toFinset, mem_map] at hq
    obtain ⟨⟨t, htn, rfl⟩, hqA⟩ := hq
    have htn' := hnb t htn
    have htl : t < c.size :=
      ht.graph.lt_right ((ht.graph.mem_neighboursOf hlt (by rw [hn]; decide)).mp htn')
    have hf := hm.find htl
    refine Finset.mem_image.mpr ⟨c.find t, ?_, hf.symm⟩
    rw [Finset.mem_sdiff, mem_toFinset, mem_toFinset]
    refine ⟨mem_map_of_mem htn', fun hA => hqA ?_⟩
    rw [hf, if_neg]
    · exact hA
    · rintro hv
      exact hm.mergeable.right_ne_selected (hv ▸ hsel _ (mem_append_left _ hA))
  rw [hm.k]
  exact lt_of_le_of_lt ((Finset.card_le_card hsub).trans Finset.card_image_le) hcard

/-- Every step keeps the nodes that were taken out guarded. -/
theorem Guarded.step {H'' : Nat → Prop} {s : Step} (h : c.Guarded H) (hch : Change c s c')
    (ht : c.Tidy { hard := H' }) (ht' : c'.Tidy { hard := H'' }) (hsep : c.Separated)
    (hready : ∀ n, s = .simplify n → c.degreeOf n < c.k ∨ H n) : c'.Guarded H := by
  have hsift : Sifts c c' → c'.Guarded H := by
    intro hs A n B hl
    rw [hs.selected] at hl
    have hmap : (c'.neighboursOf n).map c'.find = (c.neighboursOf n).map c.find := by
      rw [hs.neighboursOf_eq]
      exact map_congr_left fun y _ => hs.find_eq
    rw [hmap, hs.k]
    exact h A n B hl
  cases s with
  | simplify n => exact h.remove hch ht hsep (hready n rfl)
  | coalesce m =>
    rcases hch with hd | ⟨-, u, v, hm⟩
    · exact hsift hd.toSifts
    · exact h.merge hm ht ht'
  | freeze n => exact hsift (Releases.toSifts hch)
  | spill choice => exact hsift hch.1.toSifts

/-! ### Whole runs -/

section Final

variable (h : Primed c)
include h

theorem Primed.guarded_classify : c.build.classify.Guarded H := by
  intro A n B hl
  have hsel : c.build.classify.node n = .selected :=
    (h.classified.shape.mem_list (by decide)).mp (by rw [hl]; simp)
  exact absurd hsel (h.classified.inGraph n).1

/-- If only certain nodes are ever chosen for a spill, all others are guarded in the end. -/
theorem Primed.guarded_of (hspill : ∀ {c' : Coloring} {choice : Candidate},
      c'.Tidy { hard := H } → Since c.build.classify c' →
      c'.Firm (fun x y => c.build.classify.interferes x y = true) → c'.Due (.spill choice) →
      H choice.node) : c.reduced.Guarded H := by
  have hfirm : c.build.classify.Firm fun x y => c.build.classify.interferes x y = true :=
    fun S _ x _ y hy => ((mem_crowd (h.tidy_classify (H := fun _ => True)).graph).mp hy).2
  refine (reduce_induction (P := fun c' => c'.Tidy { hard := H } ∧ c'.Separated ∧
      Since c.build.classify c' ∧ c'.Firm (fun x y => c.build.classify.interferes x y = true) ∧
      c'.Guarded H)
    (fun {c' s} hP hs => ?_) _ _
    ⟨h.tidy_classify, h.separated_classify, Since.refl _, hfirm, h.guarded_classify⟩).2.2.2.2
  obtain ⟨h1, h2, h3, h4, h5⟩ := hP
  obtain ⟨h6, h7⟩ := h1.step hs fun choice hchoice =>
    hspill h1 h3 h4 (hchoice ▸ h1.shape.due hs)
  refine ⟨h6, h2.step h7 h1 h6, h3.step h7, h4.step h7 h1 h6, h5.step h7 h1 h6 h2 ?_⟩
  rintro n rfl
  exact h1.ready (h1.shape.due hs) (by simp)

/-- A guarded node finds a color. -/
theorem Primed.hard_of_spilled (hg : c.reduced.Guarded H) (hn : n ∈ c.run.1.nodes.list .spilled) :
    H n := by
  obtain ⟨hstate, hsel, -, -⟩ := h.spilled_spec hn
  obtain ⟨c', h1, hnodes, -⟩ := h.run_spec
  have hnode : c'.node n = .spilled := by
    generalize c.run.1 = r at hnodes hstate
    simpa only [node, hnodes] using hstate
  obtain ⟨A, B, hl⟩ := append_of_mem hsel
  refine (hg A n B hl).resolve_right fun hlt => ?_
  have := h1.full hl hnode
  rw [nil_append] at this
  omega

/-- No register made for a spill is spilled, if those are few around each other. -/
theorem Primed.not_spilled (hk : 0 < c.k)
    (hfit : ∀ x, c.temporaries.contains x = true → ∀ F : Finset Nat,
      (∀ y ∈ F, (c.temporaries.contains y = true ∨ c.node y = .precolored) ∧
        ∃ j < c.live.refs.size, c.live.Conflict j x y ∨ c.live.Conflict j y x) → F.card < c.k)
    (hn : n ∈ c.run.1.nodes.list .spilled) : c.temporaries.contains n = false := by
  have htemp : c.build.classify.temporaries = c.temporaries := by
    rw [h.classified.eq]
    exact h.built.temporaries
  have hkk : c.build.classify.k = c.k := by
    rw [h.classified.k]
    exact h.built.k
  have hpre : ∀ y, c.build.classify.node y = .precolored ↔ c.node y = .precolored := fun y => by
    rw [h.classified.precolored_iff h.built.even.shape]
    unfold Coloring.node
    rw [h.built.nodes]
  refine h.hard_of_spilled (H := fun n => c.temporaries.contains n = false)
    (h.guarded_of fun {c' choice} h1 h3 h4 hdue => ?_) hn
  rw [← htemp, ← h3.temporaries]
  refine h4.choice_not_temporary h1 (by rw [h3.k, hkk]; exact hk) (fun x hx F hF => ?_) hdue
  rw [h3.temporaries, htemp] at hx hF
  rw [h3.k, hkk]
  refine hfit x hx F fun y hy => ?_
  obtain ⟨h6, h7⟩ := hF y hy
  rw [h3.precolored_iff, hpre] at h6
  exact ⟨h6, h.interferes_classify.mp h7⟩

end Final

end Codegen.Coloring
