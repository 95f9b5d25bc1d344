import Codegen.Proofs.Coloring.Find

/-!
# Tidy colorings

What holds of nodes, moves and degrees whenever a step begins (`Tidy`): the degree of a node is the
number of its neighbours in the graph, the list of a node fits its degree and its moves, and every
open move is listed for the nodes that stand for its registers. While a step is under way some rules
are out of force for some nodes, which a `Slack` names.
-/

namespace Codegen.Coloring

/-- Nodes for which a step that is under way has put a rule out of force. -/
structure Slack where
  /-- One neighbour more is counted than there is. -/
  pending : List Nat := []
  /-- There may be too many neighbours for the list the node is on. -/
  heavy : List Nat := []
  /-- There may be no open move left. -/
  idle : List Nat := []
  /-- There may be open moves left. -/
  busy : List Nat := []
  /-- The nodes that may be taken out with too many neighbours, step under way or not. -/
  hard : Nat → Prop := fun _ => True

/-- How many neighbours are counted too many. -/
def Slack.excess (w : Slack) (n : Nat) : Int := if n ∈ w.pending then 1 else 0

structure Tidy (c : Coloring) (w : Slack) : Prop where
  shape : c.Shape
  graph : c.IsGraph
  finds : c.Finds
  /-- Moves are between nodes. -/
  bound : ∀ {m s d}, c.live.movePair? m = some (s, d) → s < c.size ∧ d < c.size
  /-- No node is colored yet. -/
  states : ∀ {n}, n < c.size →
    c.node n ≠ .unprocessed ∧ c.node n ≠ .spilled ∧ c.node n ≠ .colored
  pair : ∀ {m}, (c.move m).isOpen = true → ∃ s d, c.live.movePair? m = some (s, d)
  ends : ∀ {m s d}, (c.move m).isOpen = true → c.live.movePair? m = some (s, d) →
    m ∈ c.relatedOf (c.find s) ∧ m ∈ c.relatedOf (c.find d)
  owner : ∀ {m n}, m ∈ c.relatedOf n → c.node n ≠ .coalesced →
    ∃ s d, c.live.movePair? m = some (s, d) ∧ (c.find s = n ∨ c.find d = n)
  quiet : ∀ {n}, c.node n = .removable ∨ c.node n = .selected → n ∉ w.busy →
    c.isMoveRelated n = false
  degree : ∀ {n}, n < c.size → c.node n ≠ .precolored → c.InGraph n →
    c.degreeOf n = (c.adjacent n).length + w.excess n
  spillable : ∀ {n}, c.node n = .spillable → (c.k : Int) ≤ c.degreeOf n
  light : ∀ {n}, c.node n = .freezeable → n ∉ w.heavy → c.degreeOf n < c.k
  related : ∀ {n}, c.node n = .freezeable → n ∉ w.idle → c.isMoveRelated n = true
  ready : ∀ {n}, c.node n = .removable → n ∉ w.heavy → c.degreeOf n < c.k ∨ w.hard n

variable {c c' : Coloring} {w w' : Slack} {m n s d u v : Nat}

/-- The rules on the list that a node is on. -/
structure Listed (c : Coloring) (w : Slack) (n : Nat) : Prop where
  quiet : c.node n = .removable ∨ c.node n = .selected → n ∉ w.busy → c.isMoveRelated n = false
  spillable : c.node n = .spillable → (c.k : Int) ≤ c.degreeOf n
  light : c.node n = .freezeable → n ∉ w.heavy → c.degreeOf n < c.k
  related : c.node n = .freezeable → n ∉ w.idle → c.isMoveRelated n = true
  ready : c.node n = .removable → n ∉ w.heavy → c.degreeOf n < c.k ∨ w.hard n

theorem Tidy.listed (h : c.Tidy w) (n : Nat) : c.Listed w n :=
  ⟨h.quiet, h.spillable, h.light, h.related, h.ready⟩

/-- A node may stay on its list if its degree still fits. -/
theorem Listed.stay (h : c.Listed w n) (hk : c'.k = c.k) (hnode : c'.node n = c.node n)
    (hrel : c'.isMoveRelated n = c.isMoveRelated n)
    (hle : n ∉ w.heavy → c'.degreeOf n ≤ c.degreeOf n)
    (hspill : c.node n = .spillable → (c.k : Int) ≤ c'.degreeOf n) : c'.Listed w n := by
  refine ⟨?_, ?_, ?_, ?_, ?_⟩ <;> rw [hnode]
  · rw [hrel]
    exact h.quiet
  · rw [hk]
    exact hspill
  · intro hn hh
    rw [hk]
    exact (hle hh).trans_lt (h.light hn hh)
  · rw [hrel]
    exact h.related
  · intro hn hh
    rw [hk]
    exact (h.ready hn hh).imp_left (hle hh).trans_lt

/-! ### Sorting nodes and moves anew -/

/-- A node may change between the lists of the graph, but not away from those to be taken out. -/
def Slides (s s' : NodeState) : Prop :=
  s' = s ∨ (s = .freezeable ∨ s = .spillable) ∧
    (s' = .removable ∨ s' = .freezeable ∨ s' = .spillable)

theorem Slides.trans {s s' s'' : NodeState} (h : Slides s s') (h' : Slides s' s'') :
    Slides s s'' := by
  rcases h with h1 | ⟨h1, h2⟩
  · rwa [← h1]
  · rcases h' with h3 | ⟨-, h3⟩
    · rw [h3]
      exact Or.inr ⟨h1, h2⟩
    · exact Or.inr ⟨h1, h3⟩

/-- A state outside of the graph's own lists does not change. -/
theorem Slides.eq_iff {s s' st : NodeState} (h : Slides s s') (h1 : st ≠ .removable)
    (h2 : st ≠ .freezeable) (h3 : st ≠ .spillable) : s' = st ↔ s = st := by
  rcases h with hn | ⟨hn, hn'⟩
  · rw [hn]
  · constructor
    · rintro rfl
      rcases hn' with hn' | hn' | hn'
      · exact absurd hn' h1
      · exact absurd hn' h2
      · exact absurd hn' h3
    · rintro rfl
      rcases hn with hn | hn
      · exact absurd hn h2
      · exact absurd hn h3

/-- Only worklists and degrees differ, and nodes changed between the lists of the graph only. -/
structure Sorts (c c' : Coloring) : Prop where
  live : c'.live = c.live
  k : c'.k = c.k
  firstDegree : c'.firstDegree = c.firstDegree
  related : c'.related = c.related
  mergedInto : c'.mergedInto = c.mergedInto
  color : c'.color = c.color
  temporaries : c'.temporaries = c.temporaries
  node : ∀ n, Slides (c.node n) (c'.node n)
  selected : c'.nodes.list .selected = c.nodes.list .selected
  coalesced : c'.nodes.list .coalesced = c.nodes.list .coalesced

theorem Sorts.refl (c : Coloring) : Sorts c c :=
  ⟨rfl, rfl, rfl, rfl, rfl, rfl, rfl, fun _ => Or.inl rfl, rfl, rfl⟩

theorem Sorts.trans {c c' c'' : Coloring} (h : Sorts c c') (h' : Sorts c' c'') : Sorts c c'' := by
  refine ⟨h'.live.trans h.live, h'.k.trans h.k, h'.firstDegree.trans h.firstDegree,
    h'.related.trans h.related, h'.mergedInto.trans h.mergedInto, h'.color.trans h.color,
    h'.temporaries.trans h.temporaries, fun n => ?_, h'.selected.trans h.selected,
    h'.coalesced.trans h.coalesced⟩
  exact (h.node n).trans (h'.node n)

theorem SameRest.sorts (h : SameRest c c') : Sorts c c' :=
  ⟨h.live, h.k, h.firstDegree, h.related, h.mergedInto, h.color, h.temporaries,
    fun n => Or.inl (h.node n), by rw [h.nodes], by rw [h.nodes]⟩

namespace Sorts

variable (h : Sorts c c')
include h

theorem size : c'.size = c.size := by
  unfold Coloring.size
  rw [h.live]

theorem node_iff {st : NodeState} (h1 : st ≠ .removable) (h2 : st ≠ .freezeable)
    (h3 : st ≠ .spillable) : c'.node n = st ↔ c.node n = st := (h.node n).eq_iff h1 h2 h3

theorem precolored_iff : c'.node n = .precolored ↔ c.node n = .precolored :=
  h.node_iff (by decide) (by decide) (by decide)

theorem coalesced_iff : c'.node n = .coalesced ↔ c.node n = .coalesced :=
  h.node_iff (by decide) (by decide) (by decide)

theorem selected_iff : c'.node n = .selected ↔ c.node n = .selected :=
  h.node_iff (by decide) (by decide) (by decide)

theorem inGraph_iff : c'.InGraph n ↔ c.InGraph n := by
  unfold InGraph
  rw [ne_eq, ne_eq, h.selected_iff, h.coalesced_iff]

theorem find_eq : c'.find n = c.find n :=
  find_congr h.size h.mergedInto fun _ => h.coalesced_iff

theorem relatedOf_eq : c'.relatedOf n = c.relatedOf n := by
  unfold relatedOf
  rw [h.related]

theorem isMoveRelated_eq (hopen : ∀ m, (c'.move m).isOpen = (c.move m).isOpen) :
    c'.isMoveRelated n = c.isMoveRelated n := by
  rw [Bool.eq_iff_iff, isMoveRelated_iff, isMoveRelated_iff, h.relatedOf_eq]
  simp only [hopen]

end Sorts

/-- Sorting that leaves the graph as it is. -/
structure Sifts (c c' : Coloring) : Prop extends Sorts c c' where
  adj : c'.adj = c.adj
  neighbours : c'.neighbours = c.neighbours

theorem Sifts.refl (c : Coloring) : Sifts c c := ⟨Sorts.refl c, rfl, rfl⟩

theorem Sifts.trans {c c' c'' : Coloring} (h : Sifts c c') (h' : Sifts c' c'') : Sifts c c'' :=
  ⟨h.toSorts.trans h'.toSorts, h'.adj.trans h.adj, h'.neighbours.trans h.neighbours⟩

namespace Sifts

variable (h : Sifts c c')
include h

theorem interferes_eq (a b : Nat) : c'.interferes a b = c.interferes a b := by
  unfold interferes adjOf
  rw [h.adj]

theorem neighboursOf_eq (a : Nat) : c'.neighboursOf a = c.neighboursOf a := by
  unfold neighboursOf
  rw [h.neighbours]

theorem adjacent_eq : c'.adjacent n = c.adjacent n := by
  unfold adjacent
  rw [h.neighbours]
  refine List.filter_congr fun m _ => ?_
  rw [Bool.eq_iff_iff]
  simpa [InGraph] using h.inGraph_iff (n := m)

end Sifts

/-- The rules on mergers and ends of moves survive sorting; the others have to be given. -/
theorem Tidy.resort (h : c.Tidy w) (hs : Sorts c c') (hshape : c'.Shape) (hgraph : c'.IsGraph)
    (hopen : ∀ m, (c'.move m).isOpen = true → (c.move m).isOpen = true)
    (hdegree : ∀ n, n < c.size → c.node n ≠ .precolored → c.InGraph n →
      c'.degreeOf n = (c'.adjacent n).length + w'.excess n)
    (hlisted : ∀ n, c'.Listed w' n) : c'.Tidy w' := by
  refine ⟨hshape, hgraph,
    h.finds.congr hs.size hs.mergedInto (fun _ => hs.coalesced_iff) (by rw [hs.coalesced]),
    ?_, ?_, ?_, ?_, ?_, (hlisted _).quiet, ?_, (hlisted _).spillable, (hlisted _).light,
    (hlisted _).related, (hlisted _).ready⟩
  · intro m s d hm
    rw [hs.live] at hm
    rw [hs.size]
    exact h.bound hm
  · intro n hn
    rw [hs.size] at hn
    obtain ⟨h1, h2, h3⟩ := h.states hn
    rw [ne_eq, ne_eq, ne_eq, hs.node_iff (by decide) (by decide) (by decide),
      hs.node_iff (by decide) (by decide) (by decide), hs.node_iff (by decide) (by decide) (by decide)]
    exact ⟨h1, h2, h3⟩
  · intro m hm
    rw [hs.live]
    exact h.pair (hopen m hm)
  · intro m s d hm hp
    rw [hs.live] at hp
    rw [hs.find_eq, hs.find_eq, hs.relatedOf_eq, hs.relatedOf_eq]
    exact h.ends (hopen m hm) hp
  · intro m n hm hn
    rw [hs.relatedOf_eq] at hm
    rw [ne_eq, hs.coalesced_iff] at hn
    obtain ⟨s, d, hp, hf⟩ := h.owner hm hn
    refine ⟨s, d, by rw [hs.live]; exact hp, ?_⟩
    rw [hs.find_eq, hs.find_eq]
    exact hf
  · intro n hn hp hi
    rw [hs.size] at hn
    rw [ne_eq, hs.precolored_iff] at hp
    exact hdegree n hn hp (hs.inGraph_iff.mp hi)

/-- Sorting that leaves the graph alone keeps the rules on the graph as well. -/
theorem Tidy.sort (h : c.Tidy w) (hs : Sifts c c') (hshape : c'.Shape)
    (hopen : ∀ m, (c'.move m).isOpen = true → (c.move m).isOpen = true)
    (hdegree : ∀ n, n < c.size → c.node n ≠ .precolored → c.InGraph n →
      c'.degreeOf n = (c.adjacent n).length + w'.excess n)
    (hlisted : ∀ n, c'.Listed w' n) : c'.Tidy w' := by
  refine h.resort hs.toSorts hshape
    (h.graph.congr hs.live hs.adj hs.neighbours fun _ => hs.precolored_iff) hopen ?_ hlisted
  intro n hn hp hi
  rw [hs.adjacent_eq]
  exact hdegree n hn hp hi

/-! ### Slack that is not needed -/

/-- A node that is not on the list of freezeable nodes does not need moves. -/
theorem Tidy.drop_idle (h : c.Tidy { w with idle := n :: w.idle })
    (hn : c.node n = .freezeable → n ∈ w.idle ∨ c.isMoveRelated n = true) : c.Tidy w := by
  refine { h with related := fun {x} hx hi => ?_ }
  by_cases hxn : x = n
  · subst hxn
    rcases hn hx with hn | hn
    · exact absurd hn hi
    · exact hn
  · exact h.related hx (by simpa [hxn] using hi)

/-- A node without moves is not busy. -/
theorem Tidy.drop_busy (h : c.Tidy { w with busy := n :: w.busy }) (hn : c.isMoveRelated n = false) :
    c.Tidy w := by
  refine { h with quiet := fun {x} hx hb => ?_ }
  by_cases hxn : x = n
  · rw [hxn, hn]
  · exact h.quiet hx (by simpa [hxn] using hb)

theorem Tidy.drop_heavy (h : c.Tidy { w with heavy := n :: w.heavy })
    (hn : c.node n = .freezeable → n ∉ w.heavy → c.degreeOf n < c.k)
    (hn' : c.node n = .removable → n ∉ w.heavy → c.degreeOf n < c.k ∨ w.hard n) : c.Tidy w := by
  refine { h with light := fun {x} hx hi => ?_, ready := fun {x} hx hi => ?_ }
  · by_cases hxn : x = n
    · subst hxn
      exact hn hx hi
    · exact h.light hx (by simpa [hxn] using hi)
  · by_cases hxn : x = n
    · subst hxn
      exact hn' hx hi
    · exact h.ready hx (by simpa [hxn] using hi)

/-! ### What a tidy coloring says of moves -/

/-- The nodes that stand for the registers of an open move are still in the graph and not about to
be taken out. -/
theorem Tidy.end_states (h : c.Tidy w) (hb : w.busy = []) (hm : (c.move m).isOpen = true)
    (hp : c.live.movePair? m = some (s, d)) {n : Nat} (hn : n = c.find s ∨ n = c.find d) :
    n < c.size ∧ (c.node n = .precolored ∨ c.node n = .freezeable ∨ c.node n = .spillable) := by
  obtain ⟨hs, hd⟩ := h.bound hp
  have hlt : n < c.size ∧ c.node n ≠ .coalesced := by
    rcases hn with rfl | rfl
    · exact ⟨h.finds.find_lt h.shape hs, h.finds.node_find h.shape hs⟩
    · exact ⟨h.finds.find_lt h.shape hd, h.finds.node_find h.shape hd⟩
  have hrel : c.isMoveRelated n = true := by
    obtain ⟨h1, h2⟩ := h.ends hm hp
    rcases hn with rfl | rfl
    · exact isMoveRelated_iff.mpr ⟨m, h1, hm⟩
    · exact isMoveRelated_iff.mpr ⟨m, h2, hm⟩
  have hq : ¬ (c.node n = .removable ∨ c.node n = .selected) := by
    intro hst
    have := h.quiet hst (by simp [hb])
    rw [hrel] at this
    cases this
  obtain ⟨h1, h2, h3⟩ := h.states hlt.1
  refine ⟨hlt.1, ?_⟩
  cases hst : c.node n <;> simp_all

end Codegen.Coloring
