import Codegen.Proofs.Coloring.Termination

/-!
# Merged registers

A register that was merged has the color of the one that stands for it. That color is one for virtual
registers even where a machine register stands for them, because mergers with the others are refused
(`Inherits`), so every virtual register that gets a color gets one below `k`
(`Primed.color_lt_of_virtual`). The groups of merged registers are disjoint, and the node that begins
a group is merged into none (`nodup_flatten_groupNodes`).
-/

namespace Codegen.Coloring

open List

variable {c c' : Coloring} {H : Nat → Prop} {regs : List (Option Reg)} {n x color : Nat}

/-! ### Colors of merged nodes -/

/-- The color of a node that stands for others, if it has one, is for virtual registers. -/
def Inherits (c : Coloring) : Prop :=
  ∀ x < c.size, c.node x = .coalesced → ∀ color, c.colorOf (c.find x) = some color → color < c.k

theorem Keeps.colorOf_eq (h : Keeps c c') (n : Nat) : c'.colorOf n = c.colorOf n := by
  unfold Coloring.colorOf
  rw [h.color]

/-- Nothing changes while no node is merged. -/
theorem Inherits.congr (h : c.Inherits) (hk : Keeps c c')
    (hnode : ∀ x, c'.node x = .coalesced → c.node x = .coalesced)
    (hfind : ∀ x, c'.find x = c.find x) : c'.Inherits := by
  intro x hx hn color hc
  rw [hfind, hk.colorOf_eq] at hc
  rw [hk.k]
  exact h x (hk.size ▸ hx) (hnode x hn) color hc

theorem Inherits.merge {u v : Nat} (h : c.Inherits) (hm : Merges u v c c')
    (hcol : ∀ n, c.node n = .precolored ↔ ∃ color, c.colorOf n = some color) : c'.Inherits := by
  intro x hx hn color hc
  rw [hm.size] at hx
  rw [hm.find hx, hm.colorOf_eq] at hc
  rw [hm.k]
  by_cases hv : c.find x = v
  · rw [if_pos hv] at hc
    exact hm.color_lt (isMachine_iff.mpr ((hcol u).mpr ⟨color, hc⟩)) color hc
  · rw [if_neg hv] at hc
    -- the node was merged before, since `v` stood for itself
    have hxv : x ≠ v := by
      rintro rfl
      exact hv (find_of_ne hm.mergeable.right_ne_coalesced)
    have hold := ((hm.node x hxv).eq_iff (by decide) (by decide) (by decide)).mp hn
    exact h x hx hold color hc

/-- No step lets a node inherit a color that is not for virtual registers. -/
theorem Inherits.step {s : Step} (h : c.Inherits) (hch : Change c s c')
    (hcol : ∀ n, c.node n = .precolored ↔ ∃ color, c.colorOf n = some color) : c'.Inherits := by
  have hsift : Sifts c c' → c'.Inherits := fun hs =>
    h.congr hs.toSorts.keeps (fun _ => hs.coalesced_iff.mp) fun _ => hs.find_eq
  cases s with
  | simplify n =>
    have hr : Removes n c c' := hch
    refine h.congr hr.toKeeps (fun x hx => ?_) hr.find
    have hxn : x ≠ n := by
      rintro rfl
      rw [hr.new] at hx
      cases hx
    exact ((hr.node x hxn).eq_iff (by decide) (by decide) (by decide)).mp hx
  | coalesce m =>
    rcases hch with hd | ⟨-, u, v, hm⟩
    · exact hsift hd.toSifts
    · exact h.merge hm hcol
  | freeze n => exact hsift (Releases.toSifts hch)
  | spill choice => exact hsift hch.1.toSifts

namespace Primed

variable (h : Primed c)
include h

theorem inherits : c.reduced.Inherits := by
  have hfirst : c.build.classify.Inherits := fun x _ hx =>
    absurd hx (h.classified.inGraph x).2
  refine (reduce_induction (P := fun c' => c'.Tidy {} ∧ Since c.build.classify c' ∧ c'.Inherits)
    (fun {c' s} hP hs => ?_) _ _ ⟨h.tidy_classify, Since.refl _, hfirst⟩).2.2
  obtain ⟨h1, h2, h3⟩ := hP
  obtain ⟨h4, h5⟩ := h1.step hs fun _ _ => trivial
  exact ⟨h4, h2.step h5, h3.step h5 (h.machine_since h2)⟩

/-- A virtual register gets one of the first `k` colors, whichever way it comes to it. -/
theorem color_lt_of_virtual (hx : x < c.size) (hp : c.node x ≠ .precolored)
    (hcolor : c.run.1.colorOf x = some color) : color < c.k := by
  obtain ⟨ht, -, -⟩ := h.reduced
  obtain ⟨c', h1, -, h3⟩ := h.assigned
  have hx' : x < c.reduced.size := h.size_reduced.symm ▸ hx
  rw [h3 x hx] at hcolor
  rw [← h.k_reduced]
  by_cases hsel : c.reduced.find x ∈ c.reduced.nodes.list .selected
  · rcases h1.done _ hsel with ⟨-, color', hlt, hc⟩ | ⟨-, hc⟩
    · rw [hc] at hcolor
      cases hcolor
      exact hlt
    · rw [hc] at hcolor
      cases hcolor
  · rw [h1.color _ hsel] at hcolor
    by_cases hco : c.reduced.node x = .coalesced
    · exact h.inherits x hx' hco color hcolor
    · rw [find_of_ne hco] at hcolor
      exact absurd ((h.precolored_reduced x).mp ((h.machine_reduced x).mpr ⟨color, hcolor⟩)) hp

/-! ### Groups -/

theorem find_run (x : Nat) : c.run.1.find x = c.reduced.find x := by
  obtain ⟨ht, -, -⟩ := h.reduced
  obtain ⟨c', h1, h2, -⟩ := h.assigned
  rw [← h1.find_eq (nil_append _).symm ht.shape x]
  generalize c.run.1 = r at h2 ⊢
  rw [h2]
  exact find_congr rfl rfl fun _ => Iff.rfl

theorem mem_coalesced_run : x ∈ c.run.1.nodes.list .coalesced ↔ c.reduced.node x = .coalesced := by
  obtain ⟨ht, -, -⟩ := h.reduced
  obtain ⟨c', h1, hnodes, -⟩ := h.run_spec
  rw [hnodes, h1.shape.mem_list (by decide), h1.coalesced_iff (nil_append _).symm ht.shape]

/-- What stands for a merged node is no merged node. -/
theorem find_not_mem_coalesced (hx : x ∈ c.run.1.nodes.list .coalesced) :
    x < c.size ∧ c.run.1.find x < c.size ∧ c.run.1.find x ∉ c.run.1.nodes.list .coalesced := by
  obtain ⟨ht, -, -⟩ := h.reduced
  have hfind := h.find_run x
  have hmem := fun x => h.mem_coalesced_run (x := x)
  generalize c.run.1 = r at hx hfind hmem ⊢
  have hnode := (hmem x).mp hx
  have hlt : x < c.reduced.size := ht.shape.lt_of_node (by rw [hnode]; decide)
  rw [hfind, hmem, ← h.size_reduced]
  exact ⟨hlt, ht.finds.find_lt ht.shape hlt, ht.finds.node_find ht.shape hlt⟩

/-- A merged node has the color of what stands for it. -/
theorem colorOf_find_run (hx : x < c.size) :
    c.run.1.colorOf (c.run.1.find x) = c.run.1.colorOf x := by
  obtain ⟨ht, -, -⟩ := h.reduced
  obtain ⟨c', h1, -, h3⟩ := h.assigned
  have hx' : x < c.reduced.size := h.size_reduced.symm ▸ hx
  have hlt := ht.finds.find_lt ht.shape hx'
  have hfind := h.find_run x
  generalize c.run.1 = r at h3 hfind ⊢
  rw [hfind, h3 x hx, h3 _ (h.size_reduced ▸ hlt), find_of_ne (ht.finds.node_find ht.shape hx')]

end Primed

/-- The merged nodes in groups, each begun by the node that stands for the others. -/
def groupNodes (c : Coloring) : List (List Nat) :=
  (eachOnce ((c.nodes.list .coalesced).map c.find)).map fun rep =>
    rep :: (c.nodes.list .coalesced).filter fun n => c.find n = rep

theorem groups_eq (c : Coloring) : c.groups = c.groupNodes.map (List.map c.live.reg) := by
  simp [groups, groupNodes, Function.comp_def]

/-- The groups are told apart by the nodes that begin them. -/
theorem mem_groupNodes {group : List Nat} (h : group ∈ c.groupNodes) :
    ∃ x ∈ c.nodes.list .coalesced, group =
      c.find x :: (c.nodes.list .coalesced).filter fun n => c.find n = c.find x := by
  obtain ⟨rep, hrep, rfl⟩ := mem_map.mp h
  obtain ⟨x, hx, rfl⟩ : ∃ x ∈ c.nodes.list .coalesced, c.find x = rep := by
    simpa [eachOnce, Flow.mem_foldl_insertNew] using hrep
  exact ⟨x, hx, rfl⟩

theorem nodup_flatten_groupNodes (hnd : (c.nodes.list .coalesced).Nodup)
    (hrep : ∀ x ∈ c.nodes.list .coalesced, c.find x ∉ c.nodes.list .coalesced) :
    c.groupNodes.flatten.Nodup := by
  refine nodup_flatten.mpr ⟨fun group hg => ?_, ?_⟩
  · obtain ⟨x, hx, rfl⟩ := mem_groupNodes hg
    exact nodup_cons.mpr ⟨fun hmem => hrep x hx (mem_filter.mp hmem).1, hnd.filter _⟩
  · have hreps : (eachOnce ((c.nodes.list .coalesced).map c.find)).Nodup :=
      Flow.nodup_foldl_insertNew nodup_nil
    refine pairwise_map.mpr (hreps.imp_of_mem fun {a b} ha hb hab => ?_)
    have hout : ∀ rep ∈ eachOnce ((c.nodes.list .coalesced).map c.find),
        rep ∉ c.nodes.list .coalesced := by
      intro rep hmem
      obtain ⟨x, hx, rfl⟩ : ∃ x ∈ c.nodes.list .coalesced, c.find x = rep := by
        simpa [eachOnce, Flow.mem_foldl_insertNew] using hmem
      exact hrep x hx
    -- a node of both groups would stand for itself or be merged into two nodes
    intro y hya hyb
    rcases mem_cons.mp hya with rfl | hya <;> rcases mem_cons.mp hyb with rfl | hyb
    · exact hab rfl
    · exact hout y ha (mem_filter.mp hyb).1
    · exact hout y hb (mem_filter.mp hya).1
    · have h1 := (mem_filter.mp hya).2
      have h2 := (mem_filter.mp hyb).2
      simp only [decide_eq_true_eq] at h1 h2
      exact hab (h1.symm.trans h2)

/-- The nodes of a group have one color. -/
theorem Primed.colorOf_eq_of_mem_groupNodes (h : Primed c) {group : List Nat}
    (hgroup : group ∈ c.run.1.groupNodes) : 2 ≤ group.length ∧
    ∃ rep, ∀ n ∈ group, n < c.size ∧ c.run.1.colorOf n = c.run.1.colorOf rep := by
  have hfind := fun x => h.find_not_mem_coalesced (x := x)
  have hcolor := fun x => h.colorOf_find_run (x := x)
  generalize c.run.1 = r at hgroup hfind hcolor ⊢
  obtain ⟨x, hx, rfl⟩ := mem_groupNodes hgroup
  have hself : x ∈ (r.nodes.list .coalesced).filter fun n => r.find n = r.find x :=
    mem_filter.mpr ⟨hx, by simp⟩
  refine ⟨?_, r.find x, fun n hn => ?_⟩
  · have := length_pos_of_mem hself
    rw [length_cons]
    omega
  · rcases mem_cons.mp hn with rfl | hn
    · exact ⟨(hfind x hx).2.1, rfl⟩
    · obtain ⟨h1, h2⟩ := mem_filter.mp hn
      obtain ⟨h3, -, -⟩ := hfind n h1
      rw [← of_decide_eq_true h2]
      exact ⟨h3, (hcolor n h3).symm⟩

theorem Ready.nodup_flatten_groups (h : Ready regs c) : c.run.1.groups.flatten.Nodup := by
  have hname : ∀ n ∈ c.run.1.groupNodes.flatten, c.live.Names n (c.live.reg n) := by
    intro n hn
    obtain ⟨group, h1, h2⟩ := mem_flatten.mp hn
    obtain ⟨-, rep, h3⟩ := h.colorOf_eq_of_mem_groupNodes h1
    exact Liveness.names_reg (h3 n h2).1
  rw [groups_eq, ← map_flatten, h.live_run]
  refine List.Nodup.map_on (fun n hn n' hn' heq => ?_) ?_
  · have h1 := hname n hn
    rw [heq] at h1
    exact h.inj h1 (hname n' hn')
  · exact nodup_flatten_groupNodes (h.wf_run.nodup _) fun x hx =>
      (h.find_not_mem_coalesced hx).2.2

end Codegen.Coloring
