import Codegen.Proofs.Allocation.Rounds
import Codegen.Proofs.Coloring.Conservative
import Codegen.Target.Amd64

/-!
# Allocation in one round

Merging the registers of moves never makes a graph harder to color: if the nodes of the interference
graph can be deleted one after the other, each with fewer neighbours than there are colors, then the
first round of allocation gives every register a machine register, whatever becomes of the moves
(`coalescing_conservative`).
-/

namespace Codegen.Allocation

open Pass Coloring

variable {cat : Catalog} {sc : SpillCode} {k : Nat} {fp : Option Reg} {code : Code} {g : Flow}
  {st : State}

/-- A first round that spills nothing is the only one. -/
theorem Starts.eq_first {n : Nat} {x : Round} {s : State} (hnd : cat.regs.Nodup)
    (hg : Flow.ofCode code = .ok g)
    (hnil : (ofCode cat k fp [] code g).run.1.nodes.list .spilled = [])
    (h : Starts cat sc k fp code st n x s) : n = 1 ∧ x = { code } ∧ s = st := by
  induction h with
  | first => exact ⟨rfl, rfl, rfl⟩
  | next _ hgo ih =>
    obtain ⟨rfl, rfl, rfl⟩ := ih
    obtain ⟨g', c, f, ns, rs, hg', -, hc, -, hne, hns, -⟩ := hgo.spec hnd
    cases hg.symm.trans hg'
    rw [hc, hnil] at hns
    exact absurd hns hne

theorem Config.rounds_pos (cfg : Config) : 0 < cfg.rounds := by
  unfold Config.rounds defaultRounds
  split <;> omega

/-- If the interference graph of some code can be emptied by deleting virtual nodes with fewer than
`k` neighbours, then coloring it with `k` colors leaves nothing to be spilled and no node without a
color. So allocation is done after one round, with the code as it was. The machine registers of the
code are allocatable or the frame pointer. -/
theorem coalescing_conservative (hnd : cat.regs.Nodup) (hk : 1 ≤ k)
    (hflow : Flow.ofCode code = .ok g)
    (hmach : ∀ r ∈ code.regs.filterMap id, cat.isMachine r = true →
      some r ∈ cat.regs ∨ some r = fp)
    (hpresent : none ∈ code.regs → none = fp)
    (hempties : (ofCode cat k fp [] code g).build.Empties
      (ofCode cat k fp [] code g).build.virtualNodes) :
    (ofCode cat k fp [] code g).run.1.nodes.list .spilled = [] ∧
      (∀ n < (ofCode cat k fp [] code g).size, ∃ color,
        (ofCode cat k fp [] code g).run.1.colorOf n = some color) ∧
      ∀ (sc : SpillCode) (cfg : Config) (st : State), cfg.colorCount cat.regs.length = k →
        st.frame.bind (·.fp) = fp →
        ∃ res st', allocate cat sc cfg code st = .ok res st' ∧ res.code = code ∧
          res.rounds = 1 ∧ res.spilled = [] := by
  obtain ⟨hready, -, -⟩ := ready_ofCode hnd k fp [] hflow
  have hnil := hready.spilled_eq_nil hempties
  refine ⟨hnil, fun n hn => hready.exists_color hempties hn, fun sc cfg st hcolors hfp => ?_⟩
  have hends : Ends (allocate cat sc cfg code) st
      (fun res _ => res.code = code ∧ res.rounds = 1 ∧ res.spilled = []) fun _ => False := by
    refine (ends_allocate_iff hfp hcolors (by omega)).mpr
      ((Starts.first.ends hnd (Nat.add_comm 1 _)).mono ?_ ?_)
    · rintro res st' ⟨n, x, s, c, hstart, -, rfl⟩
      obtain ⟨rfl, rfl, -⟩ := hstart.eq_first hnd hflow hnil
      exact ⟨rfl, rfl, rfl⟩
    · rintro e (⟨n, x, s, hstart, hfails⟩ | ⟨-, x, s, hstart⟩)
      · obtain ⟨-, rfl, -⟩ := hstart.eq_first hnd hflow hnil
        cases hfails with
        | flow he => cases hflow.symm.trans he
        | machine hr hne hout hm =>
          exact (hmach _ (List.mem_filterMap.mpr ⟨_, hr, rfl⟩) hm).elim hout hne
        | absent hr hne => exact hne (hpresent hr)
        | stuck hg hc hfailed =>
          cases hflow.symm.trans hg
          rw [hc, hnil] at hfailed
          cases hfailed
        | frameless hg hc hfailed =>
          cases hflow.symm.trans hg
          exact hfailed (hc ▸ hnil)
      · have := (hstart.eq_first hnd hflow hnil).1
        have := cfg.rounds_pos
        omega
  exact hends.returns

/-- A machine with two registers. -/
def pairMachine : Catalog :=
  { name := "pair", machine := [⟨0, 0, "a"⟩, ⟨0, 1, "b"⟩],
    regs := [some ⟨0, 0, "a"⟩, some ⟨0, 1, "b"⟩] }

/-- Double a parameter: of the three copies, the second is between registers that interfere. -/
def doubling : Code :=
  [.copy "mov &o0, &i0" (some ⟨0, 2, ""⟩) (some ⟨0, 0, "a"⟩),
    .copy "mov &o0, &i0" (some ⟨0, 3, ""⟩) (some ⟨0, 2, ""⟩),
    { text := "inc &o0", reads := [some ⟨0, 3, ""⟩], writes := [some ⟨0, 3, ""⟩] },
    { text := "add &o0, &i0", reads := [some ⟨0, 2, ""⟩, some ⟨0, 3, ""⟩],
      writes := [some ⟨0, 3, ""⟩] },
    .copy "mov &o0, &i0" (some ⟨0, 0, "a"⟩) (some ⟨0, 3, ""⟩),
    { text := "ret", reads := [some ⟨0, 0, "a"⟩] }]

theorem doubling_needs_one_round :
    (ofCode pairMachine 2 none [] doubling
      ⟨#[[1], [2], [3], [4], [5], []], #[[], [0], [1], [2], [3], [4]]⟩).build.Empties {1, 2} ∧
      ∃ res st', allocate pairMachine Target.Amd64.dialect.spillCode {} doubling
          { supply := { regs := 4 } } = .ok res st' ∧ res.code = doubling ∧ res.rounds = 1 ∧
        res.spilled = [] := by
  have hflow : Flow.ofCode doubling =
      .ok ⟨#[[1], [2], [3], [4], [5], []], #[[], [0], [1], [2], [3], [4]]⟩ := by rfl
  have hnodes : (ofCode pairMachine 2 none [] doubling
      ⟨#[[1], [2], [3], [4], [5], []], #[[], [0], [1], [2], [3], [4]]⟩).build.virtualNodes =
      {1, 2} := by decide +kernel
  have hempties : (ofCode pairMachine 2 none [] doubling
      ⟨#[[1], [2], [3], [4], [5], []], #[[], [0], [1], [2], [3], [4]]⟩).build.Empties {1, 2} := by
    refine .delete (n := 1) (by decide) (by decide +kernel) ?_
    refine .delete (n := 2) (by decide) (by decide +kernel) ?_
    rw [show (({1, 2} : Finset Nat).erase 1).erase 2 = ∅ by decide]
    exact .done
  obtain ⟨-, -, h⟩ := coalescing_conservative (by decide) (by decide) hflow (by decide) (by decide)
    (hnodes.symm ▸ hempties)
  exact ⟨hempties, h Target.Amd64.dialect.spillCode {} { supply := { regs := 4 } } rfl rfl⟩

end Codegen.Allocation
