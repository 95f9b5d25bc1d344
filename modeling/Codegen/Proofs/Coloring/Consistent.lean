import Codegen.Proofs.Coloring.Outcome
import Mathlib.Data.Set.Card

/-!
# What holds whenever a step begins

All that a step relies on, in terms of the tables alone (`Consistent`): which lists nodes and moves are
on, what degrees count, where open moves end, and that mergers can be followed to their end. A tidy
coloring is consistent (`Tidy.consistent`), so every state that a run goes through is, from the graph
as it was built to the one that is left when no step is (`run_consistent`).
-/

namespace Codegen

open List

/-- An item that is on some list is on that of its state, once, and on no other. -/
theorem Worklist.Wf.count_list {σ : Type} [Numbered σ] [Inhabited σ] [DecidableEq σ] {w : Worklist σ}
    {n : Nat} (h : w.Wf n) (i : Nat) (s : σ) :
    (w.list s).count i = if s = w.get i ∧ w.get i ≠ default then 1 else 0 := by
  have hmem : i ∈ w.list s ↔ s = w.get i ∧ w.get i ≠ default := by
    rw [h.mem_list]
    constructor
    · rintro ⟨-, rfl, hs⟩
      exact ⟨rfl, hs⟩
    · rintro ⟨rfl, hs⟩
      exact ⟨h.lt_of_get hs, rfl, hs⟩
  rw [(h.nodup s).count]
  exact if_congr hmem rfl rfl

namespace Coloring

variable {c : Coloring}

/-- What holds of a coloring whenever a step begins. -/
structure Consistent (c : Coloring) : Prop where
  /-- A node is on the list of its state once, and on no other. -/
  nodes : ∀ n < c.size, ∀ st, (c.nodes.list st).count n = if st = c.node n then 1 else 0
  /-- So is a move, and what is no move is on no list. -/
  moves : ∀ m st, (c.moves.list st).count m = if st = c.move m ∧ c.move m ≠ .none then 1 else 0
  symm : ∀ a b, c.interferes a b = c.interferes b a
  irrefl : ∀ a, c.interferes a a = false
  degree : ∀ n < c.size, c.node n ≠ .precolored → c.InGraph n →
    c.degreeOf n = ({m | c.interferes n m = true ∧ c.InGraph m}.ncard : Int)
  spillable : ∀ n, c.node n = .spillable → (c.k : Int) ≤ c.degreeOf n
  freezeable : ∀ n, c.node n = .freezeable →
    c.degreeOf n < c.k ∧ ∃ m ∈ c.relatedOf n, (c.move m).isOpen = true
  removable : ∀ n, c.node n = .removable → ∀ m ∈ c.relatedOf n, (c.move m).isOpen = false
  /-- An open move is listed just for the nodes that stand for its registers. -/
  related : ∀ m s d n, (c.move m).isOpen = true → c.live.movePair? m = some (s, d) →
    c.node n ≠ .coalesced → (m ∈ c.relatedOf n ↔ c.find s = n ∨ c.find d = n)
  ends : ∀ m, (c.move m).isOpen = true → ∃ s d, c.live.movePair? m = some (s, d) ∧
    c.InGraph (c.find s) ∧ c.InGraph (c.find d)
  find : ∀ n < c.size, ∃ d, c.Chain n d (c.find n)

/-- The degree of a node counts the neighbours that are still in the graph. -/
theorem Tidy.degreeOf_eq_ncard (h : c.Tidy {}) {n : Nat} (hn : n < c.size)
    (hp : c.node n ≠ .precolored) (hi : c.InGraph n) :
    c.degreeOf n = ({m | c.interferes n m = true ∧ c.InGraph m}.ncard : Int) := by
  have hset : {m | c.interferes n m = true ∧ c.InGraph m} = ((c.adjacent n).toFinset : Set Nat) := by
    ext m
    rw [Set.mem_ofPred_eq, Finset.mem_coe, mem_toFinset, h.graph.mem_adjacent hn hp]
  rw [h.degree hn hp hi, hset, Set.ncard_coe_finset, toFinset_card_of_nodup h.graph.nodup_adjacent]
  simp [Slack.excess]

theorem Tidy.consistent (h : c.Tidy {}) : c.Consistent where
  nodes n hn st := by
    have hset : c.node n ≠ .unprocessed := (h.states hn).1
    rw [h.shape.nodes.count_list]
    exact if_congr (and_iff_left hset) rfl rfl
  moves m st := h.shape.moves.count_list m st
  symm a b := h.graph.comm
  irrefl a := h.graph.irrefl
  degree n hn hp hi := h.degreeOf_eq_ncard hn hp hi
  spillable n hn := h.spillable hn
  freezeable n hn := ⟨h.light hn not_mem_nil, isMoveRelated_iff.mp (h.related hn not_mem_nil)⟩
  removable n hn m hm := by
    have hquiet := h.quiet (Or.inl hn) not_mem_nil
    rw [Bool.eq_false_iff] at hquiet ⊢
    exact fun hopen => hquiet (isMoveRelated_iff.mpr ⟨m, hm, hopen⟩)
  related m s d n hopen hp hn := by
    constructor
    · intro hm
      obtain ⟨s', d', hp', hfind⟩ := h.owner hm hn
      rw [hp] at hp'
      cases hp'
      exact hfind
    · obtain ⟨hs, hd⟩ := h.ends hopen hp
      rintro (rfl | rfl)
      · exact hs
      · exact hd
  ends m hopen := by
    obtain ⟨s, d, hp⟩ := h.pair hopen
    have hin {n : Nat} (hn : n = c.find s ∨ n = c.find d) : c.InGraph n := by
      obtain ⟨-, hst | hst | hst⟩ := h.end_states rfl hopen hp hn <;> simp [InGraph, hst]
    exact ⟨s, d, hp, hin (Or.inl rfl), hin (Or.inr rfl)⟩
  find n hn := by
    obtain ⟨d, hchain, -⟩ := h.finds.chain_find h.shape hn
    exact ⟨d, hchain⟩

/-- **Whenever a step begins the tables agree.** For any code, colored as in each round of an
allocation, the states that the run goes through are consistent; the last one is that which colors are
assigned to, and no step is left in it. -/
theorem run_consistent {cat : Catalog} (hnd : cat.regs.Nodup) (k : Nat) (fp : Option Reg)
    (temps : List (Option Reg)) {code : Code} {g : Flow} (hg : Flow.ofCode code = .ok g) :
    (∃ e c, (ofCode cat k fp temps code g).build.classify.after e = some c ∧ c.next? = none ∧
      (ofCode cat k fp temps code g).run.1 = c.assign) ∧
    ∀ i c, (ofCode cat k fp temps code g).build.classify.after i = some c → c.Consistent := by
  have h : Primed (ofCode cat k fp temps code g) := (ready_ofCode hnd k fp temps hg).1.toPrimed
  refine ⟨?_, fun i c hc => ?_⟩
  · obtain ⟨e, -, he⟩ := exists_after_reduced (ofCode cat k fp temps code g)
    exact ⟨e, _, he, h.next?_reduced, run_eq _⟩
  · exact ((h.known hc).tidy.harder fun _ _ => trivial).consistent

/-- The value of the machine register `a` is handed on to `b` by way of two others. -/
def handing : Code :=
  [.copy "mov &o0, &i0" (some ⟨0, 2, ""⟩) (some ⟨0, 0, "a"⟩),
    .copy "mov &o0, &i0" (some ⟨0, 3, ""⟩) (some ⟨0, 2, ""⟩),
    .copy "mov &o0, &i0" (some ⟨0, 1, "b"⟩) (some ⟨0, 3, ""⟩),
    { text := "use", reads := [some ⟨0, 1, "b"⟩, some ⟨0, 2, ""⟩] }]

def handingMachine : Catalog :=
  { name := "handing", machine := [⟨0, 0, "a"⟩, ⟨0, 1, "b"⟩],
    regs := [some ⟨0, 0, "a"⟩, some ⟨0, 1, "b"⟩] }

/-- After three steps both of the others are merged into `a`, which therefore can not be `b`. -/
theorem handing_consistent :
    handingMachine.regs.Nodup ∧
      ∃ c, (ofCode handingMachine 2 none [] handing
          ⟨#[[1], [2], [3], []], #[[], [0], [1], [2]]⟩).build.classify.after 3 = some c ∧
        c.find 2 = 0 ∧ c.move 2 = .constrained ∧ c.Consistent := by
  have hnd : handingMachine.regs.Nodup := by decide
  have hflow : Flow.ofCode handing = .ok ⟨#[[1], [2], [3], []], #[[], [0], [1], [2]]⟩ := by rfl
  have hstate : ((ofCode handingMachine 2 none [] handing
      ⟨#[[1], [2], [3], []], #[[], [0], [1], [2]]⟩).build.classify.after 3).map
        (fun c => (c.find 2, c.move 2)) = some (0, .constrained) := by decide +kernel
  obtain ⟨c, hc, hboth⟩ := Option.map_eq_some_iff.mp hstate
  obtain ⟨hfind, hmove⟩ := Prod.mk.inj hboth
  exact ⟨hnd, c, hc, hfind, hmove, (run_consistent hnd 2 none [] hflow).2 3 c hc⟩

end Coloring

end Codegen
