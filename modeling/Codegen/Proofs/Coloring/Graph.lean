import Codegen.Coloring.Assign
import Codegen.Proofs.Bitmap
import Codegen.Proofs.Coloring.Worklist
import Mathlib.Data.Finset.Card

/-!
# Interference graphs as relations

The parts of a coloring as functions of the node, what each small update does to them, and the
rules that the graph keeps at all times (`IsGraph`): interference is symmetric and irreflexive, and
the neighbours listed for a node that is no machine register are those it interferes with.
-/

namespace Codegen.Coloring

/-- The neighbours listed for a node. -/
def neighboursOf (c : Coloring) (n : Nat) : List Nat := c.neighbours.getD n []

/-- The moves listed for a node. -/
def relatedOf (c : Coloring) (n : Nat) : List Nat := c.related.getD n []

/-- What a merged node was merged into. -/
def mergedOf (c : Coloring) (n : Nat) : Nat := c.mergedInto.getD n 0

/-- All tables have an entry for each node, all worklists are well-formed. -/
structure Shape (c : Coloring) : Prop where
  nodes : c.nodes.Wf c.size
  moves : c.moves.Wf c.live.refs.size
  adj : c.adj.size = c.size
  neighbours : c.neighbours.size = c.size
  degree : c.degree.size = c.size
  related : c.related.size = c.size
  mergedInto : c.mergedInto.size = c.size
  color : c.color.size = c.size

variable {c : Coloring} {a b m n u v x y : Nat}

/-! ### Changing the state of a node or of a move -/

section SetNode

variable {s : NodeState}

theorem Shape.node_setNode (h : c.Shape) (hn : n < c.size) :
    (c.setNode n s).node a = if a = n then s else c.node a :=
  Worklist.get_set (h.nodes.size_state ▸ hn)

theorem Shape.setNode (h : c.Shape) (hn : n < c.size) (hs : s ≠ .unprocessed) :
    (c.setNode n s).Shape :=
  { h with nodes := h.nodes.set hn hs }

end SetNode

section SetMove

variable {s : MoveState}

@[simp] theorem setMove_node : (c.setMove m s).node a = c.node a := rfl

@[simp] theorem setMove_find : (c.setMove m s).find a = c.find a := by
  have : ∀ fuel a, (c.setMove m s).findFrom fuel a = c.findFrom fuel a := by
    intro fuel
    induction fuel with
    | zero => exact fun _ => rfl
    | succ fuel ih =>
      intro a
      simp only [findFrom, setMove_node, ih]
      rfl
  exact this _ _

theorem Shape.move_setMove (h : c.Shape) (hm : m < c.live.refs.size) :
    (c.setMove m s).move a = if a = m then s else c.move a :=
  Worklist.get_set (h.moves.size_state ▸ hm)

theorem Shape.setMove (h : c.Shape) (hm : m < c.live.refs.size) (hs : s ≠ .none) :
    (c.setMove m s).Shape :=
  { h with moves := h.moves.set hm hs }

end SetMove

/-! ### States -/

theorem Shape.lt_of_node (h : c.Shape) (hn : c.node n ≠ .unprocessed) : n < c.size :=
  h.nodes.lt_of_get hn

theorem Shape.lt_of_isOpen (h : c.Shape) (hm : (c.move m).isOpen = true) :
    m < c.live.refs.size := by
  refine h.moves.lt_of_get fun hd => ?_
  have : c.move m = .none := hd
  rw [this] at hm
  cases hm

theorem Shape.mem_list (h : c.Shape) {s : NodeState} (hs : s ≠ .unprocessed) :
    n ∈ c.nodes.list s ↔ c.node n = s := h.nodes.mem_list_of_ne hs

theorem Shape.mem_moves (h : c.Shape) {s : MoveState} (hs : s ≠ .none) :
    m ∈ c.moves.list s ↔ c.move m = s := h.moves.mem_list_of_ne hs

theorem isMachine_iff : c.isMachine n = true ↔ c.node n = .precolored := by
  simp [isMachine]

/-- A node that was neither taken out nor merged. -/
def InGraph (c : Coloring) (n : Nat) : Prop := c.node n ≠ .selected ∧ c.node n ≠ .coalesced

theorem mem_adjacent : b ∈ c.adjacent a ↔ b ∈ c.neighboursOf a ∧ c.InGraph b := by
  simp [adjacent, neighboursOf, InGraph, List.mem_filter]

theorem mem_openMoves : m ∈ c.openMoves n ↔ m ∈ c.relatedOf n ∧ (c.move m).isOpen = true := by
  simp [openMoves, relatedOf, List.mem_filter]

theorem isMoveRelated_iff :
    c.isMoveRelated n = true ↔ ∃ m ∈ c.relatedOf n, (c.move m).isOpen = true := by
  simp [isMoveRelated, relatedOf, List.any_eq_true]

/-! ### Graphs -/

/-- What the graph keeps at all times. -/
structure IsGraph (c : Coloring) : Prop where
  lt : ∀ {a b}, c.interferes a b = true → a < c.size
  symm : ∀ {a b}, c.interferes a b = true → c.interferes b a = true
  irrefl : ∀ {a}, c.interferes a a = false
  mem_neighboursOf : ∀ {a b}, a < c.size → c.node a ≠ .precolored →
    (b ∈ c.neighboursOf a ↔ c.interferes a b = true)
  nodup : ∀ {a}, (c.neighboursOf a).Nodup

section

variable (h : c.IsGraph)
include h

theorem IsGraph.comm : c.interferes a b = c.interferes b a :=
  Bool.eq_iff_iff.mpr ⟨h.symm, h.symm⟩

theorem IsGraph.lt_right (hab : c.interferes a b = true) : b < c.size :=
  h.lt (h.symm hab)

theorem IsGraph.ne (hab : c.interferes a b = true) : a ≠ b := by
  rintro rfl
  rw [h.irrefl] at hab
  cases hab

/-- The neighbours of a node that are still in the graph. -/
theorem IsGraph.mem_adjacent (ha : a < c.size) (hp : c.node a ≠ .precolored) :
    b ∈ c.adjacent a ↔ c.interferes a b = true ∧ c.InGraph b := by
  rw [Coloring.mem_adjacent, h.mem_neighboursOf ha hp]

theorem IsGraph.nodup_adjacent : (c.adjacent a).Nodup := h.nodup.filter _

end

/-- The rules of a graph depend on the states of nodes only by which are machine registers. -/
theorem IsGraph.congr {c' : Coloring} (h : c.IsGraph) (hlive : c'.live = c.live)
    (hadj : c'.adj = c.adj) (hnb : c'.neighbours = c.neighbours)
    (hpre : ∀ n, c'.node n = .precolored ↔ c.node n = .precolored) : c'.IsGraph := by
  have hsize : c'.size = c.size := by unfold size; rw [hlive]
  have hint : ∀ a b, c'.interferes a b = c.interferes a b := by
    intro a b
    unfold interferes adjOf
    rw [hadj]
  have hnbo : ∀ a, c'.neighboursOf a = c.neighboursOf a := by
    intro a
    unfold neighboursOf
    rw [hnb]
  refine ⟨?_, ?_, ?_, ?_, ?_⟩
  · intro a b hab
    rw [hsize]
    exact h.lt (hint a b ▸ hab)
  · intro a b hab
    rw [hint] at hab ⊢
    exact h.symm hab
  · intro a
    rw [hint]
    exact h.irrefl
  · intro a b ha hp
    rw [hnbo, hint]
    exact h.mem_neighboursOf (hsize ▸ ha) (fun hp' => hp ((hpre a).mpr hp'))
  · intro a
    rw [hnbo]
    exact h.nodup

/-! ### Letting nodes interfere -/

section Connect

theorem connect_of_interferes (h : c.interferes a b = true) : c.connect a b = c := by
  simp [connect, h]

/-- What `note` does: a further neighbour, unless the node is a machine register. -/
theorem note_eq : c.note a b = if c.isMachine a then c else
    { c with neighbours := c.neighbours.modify a (· ++ [b]), degree := c.degree.modify a (· + 1) } := rfl

variable (hs : c.Shape)
include hs

theorem Shape.note (a b : Nat) : (c.note a b).Shape := by
  rw [note_eq]
  split
  · exact hs
  · exact { hs with
      neighbours := Array.size_modify.trans hs.neighbours
      degree := Array.size_modify.trans hs.degree }

theorem Shape.neighboursOf_note (ha : a < c.size) :
    (c.note a b).neighboursOf x =
      if x = a ∧ c.node a ≠ .precolored then c.neighboursOf x ++ [b] else c.neighboursOf x := by
  rw [note_eq]
  by_cases hm : c.node a = .precolored
  · simp [isMachine, hm]
  · simp only [isMachine, hm, decide_false, Bool.false_eq_true, if_false, neighboursOf, getD_modify,
      ne_eq, not_false_eq_true, and_true]
    by_cases hx : x = a
    · subst hx
      simp [hs.neighbours, ha]
    · simp [hx, Ne.symm hx]

theorem Shape.degreeOf_note (ha : a < c.size) :
    (c.note a b).degreeOf x =
      if x = a ∧ c.node a ≠ .precolored then c.degreeOf x + 1 else c.degreeOf x := by
  rw [note_eq]
  by_cases hm : c.node a = .precolored
  · simp [isMachine, hm]
  · simp only [isMachine, hm, decide_false, Bool.false_eq_true, if_false, degreeOf, getD_modify,
      ne_eq, not_false_eq_true, and_true]
    by_cases hx : x = a
    · subst hx
      simp [hs.degree, ha]
    · simp [hx, Ne.symm hx]

end Connect

/-- Everything that letting nodes interfere leaves alone. -/
structure SameRest (c c' : Coloring) : Prop where
  live : c'.live = c.live
  k : c'.k = c.k
  nodes : c'.nodes = c.nodes
  moves : c'.moves = c.moves
  firstDegree : c'.firstDegree = c.firstDegree
  related : c'.related = c.related
  mergedInto : c'.mergedInto = c.mergedInto
  color : c'.color = c.color
  temporaries : c'.temporaries = c.temporaries

theorem SameRest.refl (c : Coloring) : SameRest c c := ⟨rfl, rfl, rfl, rfl, rfl, rfl, rfl, rfl, rfl⟩

theorem SameRest.trans {c c' c'' : Coloring} (h : SameRest c c') (h' : SameRest c' c'') :
    SameRest c c'' :=
  ⟨h'.live.trans h.live, h'.k.trans h.k, h'.nodes.trans h.nodes, h'.moves.trans h.moves,
    h'.firstDegree.trans h.firstDegree, h'.related.trans h.related,
    h'.mergedInto.trans h.mergedInto, h'.color.trans h.color, h'.temporaries.trans h.temporaries⟩

theorem SameRest.size {c c' : Coloring} (h : SameRest c c') : c'.size = c.size := by
  unfold Coloring.size
  rw [h.live]

theorem SameRest.node {c c' : Coloring} (h : SameRest c c') (n : Nat) : c'.node n = c.node n := by
  unfold Coloring.node
  rw [h.nodes]

theorem SameRest.move {c c' : Coloring} (h : SameRest c c') (m : Nat) : c'.move m = c.move m := by
  unfold Coloring.move
  rw [h.moves]

theorem sameRest_note (c : Coloring) (a b : Nat) : SameRest c (c.note a b) := by
  rw [note_eq]
  split
  · exact SameRest.refl c
  · exact ⟨rfl, rfl, rfl, rfl, rfl, rfl, rfl, rfl, rfl⟩

theorem adj_note (c : Coloring) (a b : Nat) : (c.note a b).adj = c.adj := by
  rw [note_eq]
  split <;> rfl

/-- Two more nodes interfere according to the sets alone. -/
def link (c : Coloring) (a b : Nat) : Coloring :=
  { c with adj := (c.adj.modify a (·.insert b)).modify b (·.insert a) }

theorem connect_eq (c : Coloring) (hab : a ≠ b) (hi : c.interferes a b = false) :
    c.connect a b = ((c.link a b).note a b).note b a := by
  simp [connect, link, hab, hi]

theorem sameRest_link (c : Coloring) (a b : Nat) : SameRest c (c.link a b) :=
  ⟨rfl, rfl, rfl, rfl, rfl, rfl, rfl, rfl, rfl⟩

theorem Shape.link (hs : c.Shape) (a b : Nat) : (c.link a b).Shape :=
  { hs with adj := Array.size_modify.trans (Array.size_modify.trans hs.adj) }

theorem sameRest_connect (c : Coloring) (a b : Nat) : SameRest c (c.connect a b) := by
  by_cases h : (a = b || c.interferes a b) = true
  · rw [connect, if_pos h]
    exact SameRest.refl c
  · rw [Bool.or_eq_true, not_or] at h
    rw [connect_eq c (by simpa using h.1) (by simpa using h.2)]
    exact (sameRest_link c a b).trans ((sameRest_note _ a b).trans (sameRest_note _ b a))

theorem Shape.connect (hs : c.Shape) (a b : Nat) : (c.connect a b).Shape := by
  by_cases h : (a = b || c.interferes a b) = true
  · rw [Coloring.connect, if_pos h]
    exact hs
  · rw [Bool.or_eq_true, not_or] at h
    rw [connect_eq c (by simpa using h.1) (by simpa using h.2)]
    exact ((hs.link a b).note a b).note b a

theorem Shape.interferes_link (hs : c.Shape) (ha : a < c.size) (hb : b < c.size) :
    (c.link a b).interferes x y = true ↔
      c.interferes x y = true ∨ x = a ∧ y = b ∨ x = b ∧ y = a := by
  have ha' : a < c.adj.size := hs.adj ▸ ha
  have hb' : b < c.adj.size := hs.adj ▸ hb
  simp only [interferes, Coloring.link, adjOf, getD_modify, Array.size_modify]
  by_cases hxb : b = x
  · subst hxb
    by_cases hxa : a = b
    · subst hxa
      simp [ha', or_comm]
    · have hxa' : b ≠ a := Ne.symm hxa
      simp [hxa, hxa', hb', or_comm]
  · have hxb' : x ≠ b := Ne.symm hxb
    by_cases hxa : a = x
    · subst hxa
      simp [hxb, hxb', ha', or_comm]
    · have hxa' : x ≠ a := Ne.symm hxa
      simp [hxb, hxa, hxb', hxa']

theorem IsGraph.interferes_connect (hg : c.IsGraph) (hs : c.Shape) (ha : a < c.size)
    (hb : b < c.size) (hab : a ≠ b) :
    (c.connect a b).interferes x y = true ↔
      c.interferes x y = true ∨ x = a ∧ y = b ∨ x = b ∧ y = a := by
  by_cases hi : c.interferes a b = true
  · rw [connect_of_interferes hi]
    constructor
    · exact Or.inl
    · rintro (h | ⟨rfl, rfl⟩ | ⟨rfl, rfl⟩)
      · exact h
      · exact hi
      · exact hg.symm hi
  · rw [connect_eq c hab (by simpa using hi), interferes, adjOf, adj_note, adj_note]
    exact hs.interferes_link ha hb

section New

variable (hs : c.Shape) (ha : a < c.size) (hb : b < c.size) (hab : a ≠ b)
  (hi : c.interferes a b = false)
include hs ha hb hab hi

theorem Shape.neighboursOf_connect :
    (c.connect a b).neighboursOf x =
      if x = a ∧ c.node a ≠ .precolored then c.neighboursOf x ++ [b]
      else if x = b ∧ c.node b ≠ .precolored then c.neighboursOf x ++ [a]
      else c.neighboursOf x := by
  rw [connect_eq c hab hi]
  have hs' := hs.link a b
  rw [Shape.neighboursOf_note (hs'.note a b) (by rw [(sameRest_note _ a b).size]; exact hb),
    hs'.neighboursOf_note ha, (sameRest_note _ a b).node]
  by_cases hxa : x = a
  · subst hxa
    simp [hab]
    rfl
  · simp [hxa]
    rfl

theorem Shape.degreeOf_connect :
    (c.connect a b).degreeOf x =
      if x = a ∧ c.node a ≠ .precolored then c.degreeOf x + 1
      else if x = b ∧ c.node b ≠ .precolored then c.degreeOf x + 1
      else c.degreeOf x := by
  rw [connect_eq c hab hi]
  have hs' := hs.link a b
  rw [Shape.degreeOf_note (hs'.note a b) (by rw [(sameRest_note _ a b).size]; exact hb),
    hs'.degreeOf_note ha, (sameRest_note _ a b).node]
  by_cases hxa : x = a
  · subst hxa
    simp [hab]
    rfl
  · simp [hxa]
    rfl

end New

/-- Letting two different nodes interfere keeps the rules. -/
theorem IsGraph.connect (hg : c.IsGraph) (hs : c.Shape) (ha : a < c.size) (hb : b < c.size)
    (hab : a ≠ b) : (c.connect a b).IsGraph := by
  by_cases hi : c.interferes a b = true
  · rwa [connect_of_interferes hi]
  have hi' : c.interferes a b = false := by simpa using hi
  have hsize := (sameRest_connect c a b).size
  have hint := fun {x y} => hg.interferes_connect (x := x) (y := y) hs ha hb hab
  have hnb := fun {x} => hs.neighboursOf_connect (x := x) ha hb hab hi'
  refine ⟨?_, ?_, ?_, ?_, ?_⟩
  · intro x y h
    rw [hsize]
    rcases hint.mp h with h | ⟨rfl, -⟩ | ⟨rfl, -⟩
    · exact hg.lt h
    · exact ha
    · exact hb
  · intro x y h
    rw [hint] at h ⊢
    rcases h with h | ⟨rfl, rfl⟩ | ⟨rfl, rfl⟩
    · exact Or.inl (hg.symm h)
    · exact Or.inr (Or.inr ⟨rfl, rfl⟩)
    · exact Or.inr (Or.inl ⟨rfl, rfl⟩)
  · intro x
    rw [Bool.eq_false_iff]
    intro h
    rcases hint.mp h with h | ⟨rfl, heq⟩ | ⟨rfl, heq⟩
    · rw [hg.irrefl] at h
      cases h
    · exact hab heq
    · exact hab heq.symm
  · intro x y hx hp
    rw [hsize] at hx
    rw [(sameRest_connect c a b).node] at hp
    rw [hint, hnb, ← hg.mem_neighboursOf hx hp]
    by_cases hxa : x = a
    · subst hxa
      simp [hp, hab]
    · by_cases hxb : x = b
      · subst hxb
        simp [hp, hxa]
      · simp [hxa, hxb]
  · intro x
    rw [hnb]
    split
    · rename_i hx
      obtain ⟨rfl, hp⟩ := hx
      refine List.nodup_append'.mpr ⟨hg.nodup, by simp, ?_⟩
      simpa [hg.mem_neighboursOf ha hp] using hi
    · split
      · rename_i hx
        obtain ⟨rfl, hp⟩ := hx
        refine List.nodup_append'.mpr ⟨hg.nodup, by simp, ?_⟩
        simpa [hg.mem_neighboursOf hb hp, hg.comm] using hi
      · exact hg.nodup

end Codegen.Coloring
