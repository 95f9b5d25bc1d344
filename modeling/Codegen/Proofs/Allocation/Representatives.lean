import Codegen.Proofs.Allocation.Rounds
import Codegen.Proofs.Coloring.Outcome

/-!
# Spilling what stands for registers

A round looks at the nodes that stand for registers only: those that are left without a color are
spilled, unless they were made for a spill. As only nodes that were chosen for a spill and into which
nothing was merged are left without a color, no other register is concerned
(`spilled_stand_alone`).
-/

namespace Codegen.Coloring.Primed

variable {c : Coloring} {n x : Nat} (h : Primed c)
include h

theorem size_run : c.run.1.size = c.size := by
  unfold size
  rw [h.live_run]

/-- Just the spilled nodes have no color in the end. -/
theorem colorOf_run_eq_none (hx : x < c.size) :
    c.run.1.colorOf x = none ↔ x ∈ c.run.1.nodes.list .spilled := by
  constructor
  · intro hnone
    rcases h.colored_or_spilled hx with ⟨color, hcolor⟩ | hmem
    · rw [hnone] at hcolor
      cases hcolor
    · rw [← h.find_run] at hmem
      have hsp := (h.wf_run.mem_list_of_ne (by decide)).mp hmem
      rwa [h.eq_of_find_spilled hsp] at hmem
  · intro hmem
    rcases h.node_run x with ⟨-, ⟨hcol, -⟩ | ⟨-, hnone⟩⟩ | ⟨hsel, -⟩
    · rw [(h.spilled_spec hmem).1] at hcol
      cases hcol
    · exact hnone
    · obtain ⟨ht, -, -⟩ := h.reduced
      exact absurd ((ht.shape.mem_list (by decide)).mp (h.spilled_spec hmem).2.1) hsel

/-- A spilled node stands for itself and for nothing else. -/
theorem find_eq_spilled_iff (hn : c.run.1.node n = .spilled) : c.run.1.find x = n ↔ x = n := by
  constructor
  · rintro rfl
    exact (h.eq_of_find_spilled hn).symm
  · rintro rfl
    exact find_of_ne (by rw [hn]; decide)

end Codegen.Coloring.Primed

namespace Codegen.Allocation

open Pass Coloring

/-- In a round just the spilled nodes have no color, and one of the registers that a spilled node
stands for was made for a spill if and only if the node itself was. -/
theorem ends_color_spilled {cat : Catalog} (hnd : cat.regs.Nodup) {k : Nat} {fp : Option Reg}
    {temps : List (Option Reg)} {code : Code} {st : State} :
    Ends (color cat k fp temps code) st
      (fun r _ => (∀ x < r.size, r.colorOf x = none ↔ x ∈ r.nodes.list .spilled) ∧
        ∀ n ∈ r.nodes.list .spilled, r.temporaries.contains n = true ↔
          ∃ x < r.size, r.find x = n ∧ r.live.reg x ∈ temps) fun _ => True := by
  refine (ends_color hnd ⟨temps, [], code⟩).mono ?_ fun _ _ => trivial
  rintro r _ ⟨g, hg, -, -, hr⟩
  dsimp only at hg hr
  have h := (ready_ofCode hnd k fp temps hg).1.toPrimed
  rw [hr, h.size_run, h.temporaries_run, h.live_run]
  refine ⟨fun x => h.colorOf_run_eq_none, fun n hn => ?_⟩
  obtain ⟨hsp, -, hlt, -⟩ := h.spilled_spec hn
  rw [contains_temporaries_ofCode]
  constructor
  · rintro ⟨-, htemp⟩
    exact ⟨n, hlt, (h.find_eq_spilled_iff hsp).mpr rfl, htemp⟩
  · rintro ⟨x, -, hx, htemp⟩
    rw [(h.find_eq_spilled_iff hsp).mp hx] at htemp
    exact ⟨hlt, htemp⟩

/-- Whatever the liveness, the precoloring and the number of colors, a spilled node was chosen for a
spill and nothing was merged into it, a node that is taken out with fewer than `k` neighbours gets a
color, and what stands for a merged node is a machine register or colored. So in a round the registers
without a color are just the spilled nodes, and one of the registers that such a node stands for was
made for a spill if and only if the node itself was. -/
theorem spilled_stand_alone :
    (∀ p : Setup,
      (∀ n, p.coloring.run.1.node n = .spilled →
        (∃ i c choice, p.coloring.build.classify.after i = some c ∧
          c.next? = some (.spill choice) ∧ choice.node = n) ∧
        ∀ x, p.coloring.run.1.node x = .coalesced → p.coloring.run.1.mergedOf x ≠ n) ∧
      (∀ i c n, p.coloring.build.classify.after i = some c → c.next? = some (.simplify n) →
        c.degreeOf n < p.k → p.coloring.run.1.node n = .colored ∧
          ∃ color < p.k, p.coloring.run.1.colorOf n = some color) ∧
      ∀ x, p.coloring.run.1.node x = .coalesced →
        p.coloring.run.1.node (p.coloring.run.1.find x) = .precolored ∨
          p.coloring.run.1.node (p.coloring.run.1.find x) = .colored) ∧
    ∀ (cat : Catalog) (k : Nat) (fp : Option Reg) (temps : List (Option Reg)) (code : Code)
      (st st' : State) (r : Coloring), cat.regs.Nodup →
      color cat k fp temps code st = .ok r st' →
      (∀ x < r.size, r.colorOf x = none ↔ x ∈ r.nodes.list .spilled) ∧
      ∀ n ∈ r.nodes.list .spilled, r.temporaries.contains n = true ↔
        ∃ x < r.size, r.find x = n ∧ r.live.reg x ∈ temps := by
  refine ⟨fun p => ?_, fun cat k fp temps code st st' r hnd hr => ?_⟩
  · have h := p.primed
    refine ⟨fun n hn => ⟨?_, fun x hx hmerged => ?_⟩, fun i c n hc hs hdeg => ?_,
      fun x => h.find_of_coalesced⟩
    · obtain ⟨i, j, -, c, choice, hc, hs, hchoice⟩ := h.chosen_of_spilled hn
      exact ⟨j, c, choice, hc, hs, hchoice⟩
    · have hseen : p.coloring.run.1.node x ≠ .unprocessed := by rw [hx]; decide
      have hlt : x < p.coloring.run.1.size := by
        rw [h.size_run]
        exact h.wf_run.lt_of_get hseen
      have hfind : p.coloring.run.1.find x = n :=
        (find_of_merged hx hlt (by rw [hmerged, hn]; decide)).trans hmerged
      rw [(h.find_eq_spilled_iff hn).mp hfind, hn] at hx
      cases hx
    · rw [← p.k_eq]
      exact h.colored_of_takesOut ⟨hc, hs⟩ (p.k_eq ▸ hdeg)
  · exact (ends_color_spilled hnd).of_ok hr

/-- A value is kept while another is passed on in the only machine register. -/
def holding : Code :=
  [{ text := "set &o0", writes := [some ⟨0, 1, ""⟩] },
    .copy "mov &o0, &i0" (some ⟨0, 0, "a"⟩) (some ⟨0, 2, ""⟩),
    { text := "use", reads := [some ⟨0, 0, "a"⟩, some ⟨0, 1, ""⟩] }]

theorem flow_holding : Flow.ofCode holding = .ok ⟨#[[1], [2], []], #[[], [0], [1]]⟩ := rfl

/-- The two values are the nodes 0 and 1, the machine register is the node 2. -/
def holdingSetup : Setup where
  live := .ofFlow ⟨#[[1], [2], []], #[[], [0], [1]]⟩ holding none
  k := 1
  machine := [(2, 0)]
  temporaries := .empty
  bounded := (Liveness.ofFlow_describes flow_holding none).bounded
  nodup := by decide
  lt := by decide +kernel

/-- A machine with one register. -/
def holdingMachine : Catalog :=
  { name := "one", machine := [⟨0, 0, "a"⟩], regs := [some ⟨0, 0, "a"⟩] }

theorem color_holding : ∃ r st', color holdingMachine 1 none [] holding { supply := {} } = .ok r st' ∧
    r.nodes.list .spilled = [0] ∧ 0 < r.size := by
  have hround : Ends (color holdingMachine 1 none [] holding) { supply := {} }
      (fun r _ => r.nodes.list .spilled = [0] ∧ 0 < r.size) fun _ => False := by decide +kernel
  exact hround.returns

theorem holding_spills_chosen :
    (holdingSetup.coloring.run.1.node 0 = .spilled ∧
      holdingSetup.coloring.run.1.node 1 = .coalesced ∧
      (∃ i c choice, holdingSetup.coloring.build.classify.after i = some c ∧
        c.next? = some (.spill choice) ∧ choice.node = 0) ∧
      holdingSetup.coloring.run.1.mergedOf 1 ≠ 0) ∧
    ∃ r st', color holdingMachine 1 none [] holding { supply := {} } = .ok r st' ∧
      r.nodes.list .spilled = [0] ∧ r.colorOf 0 = none ∧ r.temporaries.contains 0 = false := by
  constructor
  · have hstates : holdingSetup.coloring.run.1.node 0 = .spilled ∧
        holdingSetup.coloring.run.1.node 1 = .coalesced := by decide +kernel
    obtain ⟨hchosen, halone⟩ := (spilled_stand_alone.1 holdingSetup).1 0 hstates.1
    exact ⟨hstates.1, hstates.2, hchosen, halone 1 hstates.2⟩
  · obtain ⟨r, st', hr, hspilled, hlt⟩ := color_holding
    obtain ⟨hcolor, htemp⟩ := spilled_stand_alone.2 _ _ _ _ _ _ _ r (by decide) hr
    have hmem : 0 ∈ r.nodes.list .spilled := by simp [hspilled]
    refine ⟨r, st', hr, hspilled, (hcolor 0 hlt).mpr hmem, ?_⟩
    rw [← Bool.not_eq_true, htemp 0 hmem]
    rintro ⟨x, -, -, hx⟩
    cases hx

end Codegen.Allocation
