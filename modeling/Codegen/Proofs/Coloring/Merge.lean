import Codegen.Proofs.Coloring.Steps

/-!
# Nodes that leave the graph

A node leaves the graph when it is taken out or merged into another one. Either way each of its
neighbours loses a neighbour; a merger also lets the neighbours interfere with the node that is left.
-/

namespace Codegen.Coloring

open List

variable {c c' : Coloring} {w : Slack} {m n s d t u v x : Nat}

/-! ### The neighbours that are left -/

theorem IsGraph.not_mem_adjacent_self (h : c.IsGraph) (hn : n < c.size)
    (hp : c.node n ≠ .precolored) : n ∉ c.adjacent n := by
  rw [h.mem_adjacent hn hp, h.irrefl]
  exact fun hh => Bool.false_ne_true hh.1

theorem adjacent_leave (hg : c.IsGraph) (hnb : c'.neighbours = c.neighbours)
    (hin : ∀ x, c'.InGraph x ↔ c.InGraph x ∧ x ≠ n) : c'.adjacent x = (c.adjacent x).erase n := by
  rw [hg.nodup_adjacent.erase_eq_filter]
  unfold adjacent
  rw [hnb, filter_filter]
  refine filter_congr fun y _ => ?_
  rw [Bool.eq_iff_iff]
  simpa [InGraph, and_comm] using hin y

theorem length_adjacent_leave (c' : Coloring) (hg : c.IsGraph) (hnb : c'.neighbours = c.neighbours)
    (hin : ∀ x, c'.InGraph x ↔ c.InGraph x ∧ x ≠ n) (hn : n < c.size)
    (hnp : c.node n ≠ .precolored) (hni : c.InGraph n) (hx : x < c.size)
    (hxp : c.node x ≠ .precolored) (hxi : c.InGraph x) :
    ((c.adjacent x).length : Int) =
      (c'.adjacent x).length + if x ∈ c.adjacent n then 1 else 0 := by
  have hiff : n ∈ c.adjacent x ↔ x ∈ c.adjacent n := by
    rw [hg.mem_adjacent hx hxp, hg.mem_adjacent hn hnp, hg.comm]
    simp [hni, hxi]
  rw [adjacent_leave hg hnb hin]
  by_cases hmem : n ∈ c.adjacent x
  · rw [if_pos (hiff.mp hmem), length_erase_of_mem hmem]
    have := length_pos_of_mem hmem
    omega
  · rw [if_neg (fun h => hmem (hiff.mpr h)), erase_of_not_mem hmem]
    simp

/-! ### Losing neighbours one by one -/

theorem Shape.sifts_decrement (h : c.Shape) (hn : n < c.size) : Sifts c (c.decrement n) := by
  by_cases hp : c.node n = .precolored
  · rw [decrement_of_machine hp]
    exact Sifts.refl c
  · exact (decrements h hn hp).sifts

theorem Tidy.decrementAll (list : List Nat) (h : c.Tidy { w with pending := list })
    (hnd : list.Nodup) (hlt : ∀ n ∈ list, n < c.size) :
    (list.foldl Coloring.decrement c).Tidy { w with pending := [] } ∧
      Sifts c (list.foldl Coloring.decrement c) := by
  induction list generalizing c with
  | nil => exact ⟨h, Sifts.refl c⟩
  | cons n rest ih =>
    obtain ⟨hn, hnd'⟩ := nodup_cons.mp hnd
    have hnlt := hlt n mem_cons_self
    have hs := h.shape.sifts_decrement hnlt
    obtain ⟨h1, h2⟩ := ih (h.decrement hn hnlt) hnd'
      fun x hx => hs.size.symm ▸ hlt x (mem_cons_of_mem n hx)
    exact ⟨h1, hs.trans h2⟩

/-! ### Taking a node out -/

theorem Shape.inGraph_setNode (h : c.Shape) (hn : n < c.size) {st : NodeState}
    (hst : st = .selected ∨ st = .coalesced) :
    (c.setNode n st).InGraph x ↔ c.InGraph x ∧ x ≠ n := by
  unfold InGraph
  rw [h.node_setNode hn]
  by_cases hx : x = n
  · rw [if_pos hx]
    rcases hst with rfl | rfl <;> simp [hx]
  · rw [if_neg hx]
    simp [hx]

theorem adjacent_setNode (hg : c.IsGraph) (hs : c.Shape) (hn : n < c.size)
    (hnp : c.node n ≠ .precolored) {st : NodeState} (hst : st = .selected ∨ st = .coalesced) :
    (c.setNode n st).adjacent n = c.adjacent n := by
  rw [adjacent_leave (n := n) hg (by rfl) fun x => hs.inGraph_setNode hn hst]
  exact erase_of_not_mem (hg.not_mem_adjacent_self hn hnp)

/-- A node on its way out owes each neighbour a decrement. -/
theorem Tidy.select (h : c.Tidy w) (hp : w.pending = []) (hb : w.busy = [])
    (hn : c.node n = .removable) :
    (c.setNode n .selected).Tidy { w with pending := c.adjacent n } := by
  have hlt : n < c.size := h.shape.lt_of_node (by rw [hn]; decide)
  have hnode := fun x => h.shape.node_setNode (a := x) (s := .selected) hlt
  have hold : ∀ x, x ≠ n → (c.setNode n .selected).node x = c.node x := fun x hx => by
    rw [hnode, if_neg hx]
  have hself : (c.setNode n .selected).node n = .selected := by rw [hnode, if_pos rfl]
  have hsame : ∀ {st : NodeState} x, st ≠ .removable → st ≠ .selected →
      ((c.setNode n .selected).node x = st ↔ c.node x = st) := by
    intro st x h1 h2
    by_cases hx : x = n
    · rw [hx, hself, hn]
      exact ⟨fun h => absurd h.symm h2, fun h => absurd h.symm h1⟩
    · rw [hold x hx]
  have hcoal : ∀ x, (c.setNode n .selected).node x = .coalesced ↔ c.node x = .coalesced :=
    fun x => hsame x (by decide) (by decide)
  have hfind : ∀ x, (c.setNode n .selected).find x = c.find x := fun x =>
    find_congr rfl rfl hcoal
  have hlist : (c.setNode n .selected).nodes.list .coalesced = c.nodes.list .coalesced :=
    h.shape.nodes.list_set_of_ne (by decide)
      (by rw [show c.nodes.get n = .removable from hn]; decide)
  refine ⟨h.shape.setNode hlt (by decide), ?_, ?_, h.bound, ?_, h.pair, ?_, ?_, ?_, ?_, ?_, ?_, ?_, ?_⟩
  · exact h.graph.congr rfl rfl rfl fun x => hsame x (by decide) (by decide)
  · exact Finds.congr (c := c) rfl rfl hcoal h.finds (by rw [hlist])
  · intro x hx
    obtain ⟨h1, h2, h3⟩ := h.states hx
    rw [ne_eq, ne_eq, ne_eq, hsame x (by decide) (by decide), hsame x (by decide) (by decide),
      hsame x (by decide) (by decide)]
    exact ⟨h1, h2, h3⟩
  · intro m s d hm hpair
    rw [hfind, hfind]
    exact h.ends hm hpair
  · intro m x hm hx
    obtain ⟨s, d, hpair, hf⟩ := h.owner hm fun hc => hx ((hcoal x).mpr hc)
    exact ⟨s, d, hpair, by rwa [hfind, hfind]⟩
  · intro x hx hbx
    by_cases hxn : x = n
    · rw [hxn]
      exact h.quiet (Or.inl hn) (by simp [hb])
    · exact h.quiet (hold x hxn ▸ hx) hbx
  · intro x hx hxp hxi
    obtain ⟨hxi', hxn⟩ := (h.shape.inGraph_setNode hlt (Or.inl rfl)).mp hxi
    rw [hold x hxn] at hxp
    have hdeg := h.degree hx hxp hxi'
    rw [show w.excess x = 0 by simp [Slack.excess, hp], Int.add_zero,
      length_adjacent_leave (c.setNode n .selected) h.graph rfl
        (fun y => h.shape.inGraph_setNode hlt (Or.inl rfl)) hlt (by rw [hn]; decide)
        ⟨by rw [hn]; decide, by rw [hn]; decide⟩ hx hxp hxi'] at hdeg
    exact hdeg
  · intro x hx
    exact h.spillable ((hsame x (by decide) (by decide)).mp hx)
  · intro x hx hh
    exact h.light ((hsame x (by decide) (by decide)).mp hx) hh
  · intro x hx hi
    exact h.related ((hsame x (by decide) (by decide)).mp hx) hi
  · intro x hx hh
    by_cases hxn : x = n
    · rw [hxn, hself] at hx
      cases hx
    · exact h.ready (hold x hxn ▸ hx) hh

theorem Tidy.simplify (h : c.Tidy w) (hp : w.pending = []) (hb : w.busy = [])
    (hn : c.node n = .removable) :
    (c.simplify n).Tidy w ∧ Sifts (c.setNode n .selected) (c.simplify n) := by
  have hlt : n < c.size := h.shape.lt_of_node (by rw [hn]; decide)
  have hnp : c.node n ≠ .precolored := by rw [hn]; decide
  have hadj := adjacent_setNode h.graph h.shape hlt hnp (Or.inl rfl)
  have hw : ({ w with pending := [] } : Slack) = w := by rw [← hp]
  unfold Coloring.simplify
  dsimp only
  rw [hadj]
  obtain ⟨h1, h2⟩ := (h.select hp hb hn).decrementAll _ h.graph.nodup_adjacent fun x hx =>
    h.graph.lt_right ((h.graph.mem_adjacent hlt hnp).mp hx).1
  exact ⟨hw ▸ h1, h2⟩

/-! ### Merging a node into another -/

/-- The first part of a merger: `v` is no longer a node of its own, `u` stands for it. -/
def absorb (c : Coloring) (u v : Nat) : Coloring :=
  { c.setNode v .coalesced with
    mergedInto := c.mergedInto.setIfInBounds v u
    related := c.related.modify u (· ++ c.openMoves v) }

theorem combine_eq (c : Coloring) (u v : Nat) :
    c.combine u v =
      let c' := ((c.absorb u v).adjacent v).foldl (fun c t => (c.connect t u).decrement t)
        (c.absorb u v)
      if (c'.k : Int) ≤ c'.degreeOf u && c'.node u = .freezeable then c'.setNode u .spillable
      else c' := rfl

section Absorb

variable (h : c.Shape)
include h

theorem Shape.node_absorb (hv : v < c.size) :
    (c.absorb u v).node x = if x = v then .coalesced else c.node x := h.node_setNode hv

theorem Shape.inGraph_absorb (hv : v < c.size) :
    (c.absorb u v).InGraph x ↔ c.InGraph x ∧ x ≠ v := h.inGraph_setNode hv (Or.inr rfl)

theorem Shape.absorb (hv : v < c.size) : (c.absorb u v).Shape :=
  { h.setNode hv (s := .coalesced) (by decide) with
    mergedInto := Array.size_setIfInBounds.trans h.mergedInto
    related := Array.size_modify.trans h.related }

theorem Shape.mergedOf_absorb (hv : v < c.size) :
    (c.absorb u v).mergedOf x = if x = v then u else c.mergedOf x := by
  have hv' : v < c.mergedInto.size := h.mergedInto.symm ▸ hv
  simp only [mergedOf, Coloring.absorb, Array.getD_eq_getD_getElem?, Array.getElem?_setIfInBounds]
  by_cases hx : v = x
  · subst hx
    simp [hv']
  · simp [hx, Ne.symm hx]

theorem Shape.relatedOf_absorb (hu : u < c.size) :
    (c.absorb u v).relatedOf x =
      if x = u then c.relatedOf x ++ c.openMoves v else c.relatedOf x := by
  have hu' : u < c.related.size := h.related.symm ▸ hu
  simp only [relatedOf, Coloring.absorb, getD_modify]
  by_cases hx : u = x
  · subst hx
    simp [hu']
  · simp [hx, Ne.symm hx]

theorem Shape.coalesced_absorb (hv : c.node v ≠ .coalesced) :
    (c.absorb u v).nodes.list .coalesced = c.nodes.list .coalesced ++ [v] :=
  h.nodes.list_set_self hv

theorem Shape.selected_absorb (hv : c.node v ≠ .selected) :
    (c.absorb u v).nodes.list .selected = c.nodes.list .selected :=
  h.nodes.list_set_of_ne (by decide) (Ne.symm hv)

end Absorb

/-- A node that can be merged into another: both are in the graph, the first is no machine register,
and neither is to be taken out. -/
structure Mergeable (c : Coloring) (u v : Nat) : Prop where
  ne : u ≠ v
  lt_left : u < c.size
  lt_right : v < c.size
  left : c.node u = .precolored ∨ c.node u = .freezeable ∨ c.node u = .spillable
  right : c.node v = .freezeable ∨ c.node v = .spillable
  apart : c.interferes u v = false

namespace Mergeable

variable (hm : c.Mergeable u v)
include hm

theorem left_ne_coalesced : c.node u ≠ .coalesced := by
  rcases hm.left with h | h | h <;> rw [h] <;> decide

theorem right_ne_coalesced : c.node v ≠ .coalesced := by
  rcases hm.right with h | h <;> rw [h] <;> decide

theorem right_ne_selected : c.node v ≠ .selected := by
  rcases hm.right with h | h <;> rw [h] <;> decide

theorem right_ne_precolored : c.node v ≠ .precolored := by
  rcases hm.right with h | h <;> rw [h] <;> decide

theorem inGraph_left : c.InGraph u := by
  rcases hm.left with h | h | h <;> simp [InGraph, h]

theorem inGraph_right : c.InGraph v := ⟨hm.right_ne_selected, hm.right_ne_coalesced⟩

theorem coalesced_absorb_iff (h : c.Shape) :
    (c.absorb u v).node x = .coalesced ↔ c.node x = .coalesced ∨ x = v := by
  rw [h.node_absorb hm.lt_right]
  by_cases hx : x = v
  · simp [hx]
  · simp [hx]

theorem finds_absorb (h : c.Finds) (hs : c.Shape) : (c.absorb u v).Finds :=
  h.merge (fun _ => hm.coalesced_absorb_iff hs) (fun _ => hs.mergedOf_absorb hm.lt_right)
    hm.left_ne_coalesced hm.right_ne_coalesced hm.ne
    (by rw [hs.coalesced_absorb hm.right_ne_coalesced, length_append, length_singleton])
    rfl hm.lt_left

theorem find_absorb (h : c.Finds) (hs : c.Shape) (hx : x < c.size) :
    (c.absorb u v).find x = if c.find x = v then u else c.find x :=
  h.find_merge (fun _ => hm.coalesced_absorb_iff hs) (fun _ => hs.mergedOf_absorb hm.lt_right)
    hm.left_ne_coalesced hm.right_ne_coalesced hm.ne
    (by rw [hs.coalesced_absorb hm.right_ne_coalesced, length_append, length_singleton])
    hs (hs.absorb hm.lt_right) hx

theorem adjacent_absorb (hg : c.IsGraph) (hs : c.Shape) :
    (c.absorb u v).adjacent v = c.adjacent v := by
  rw [adjacent_leave (n := v) hg (by rfl) fun x => hs.inGraph_absorb hm.lt_right]
  exact erase_of_not_mem (hg.not_mem_adjacent_self hm.lt_right hm.right_ne_precolored)

end Mergeable

section Combine

variable {H : Nat → Prop}

section Absorb

variable (h : c.Tidy { hard := H, idle := [u, v] }) (hm : c.Mergeable u v)
include h hm

/-- What stands for an end of an open move has the move: a move of `v` is open, so `u` gets it. -/
theorem Tidy.mem_relatedOf_absorb (hmo : (c.move m).isOpen = true) (hx : x < c.size)
    (hmem : m ∈ c.relatedOf (c.find x)) : m ∈ (c.absorb u v).relatedOf ((c.absorb u v).find x) := by
  rw [hm.find_absorb h.finds h.shape hx, h.shape.relatedOf_absorb hm.lt_left]
  by_cases hxv : c.find x = v
  · rw [if_pos hxv, if_pos rfl]
    exact mem_append_right _ (mem_openMoves.mpr ⟨hxv ▸ hmem, hmo⟩)
  · rw [if_neg hxv]
    split
    · exact mem_append_left _ hmem
    · exact hmem

theorem Tidy.owner_absorb (hmn : m ∈ (c.absorb u v).relatedOf n)
    (hn : (c.absorb u v).node n ≠ .coalesced) :
    ∃ s d, c.live.movePair? m = some (s, d) ∧
      ((c.absorb u v).find s = n ∨ (c.absorb u v).find d = n) := by
  rw [ne_eq, hm.coalesced_absorb_iff h.shape, not_or] at hn
  -- the move was there before, for the node itself or for `v`
  have hold : ∃ y, m ∈ c.relatedOf y ∧ c.node y ≠ .coalesced ∧ (if y = v then u else y) = n := by
    rw [h.shape.relatedOf_absorb hm.lt_left] at hmn
    split at hmn
    · rename_i hnu
      rcases mem_append.mp hmn with hmn | hmn
      · exact ⟨n, hmn, hn.1, if_neg hn.2⟩
      · exact ⟨v, (mem_openMoves.mp hmn).1, hm.right_ne_coalesced, (if_pos rfl).trans hnu.symm⟩
    · exact ⟨n, hmn, hn.1, if_neg hn.2⟩
  obtain ⟨y, hy, hyc, hyn⟩ := hold
  obtain ⟨s, d, hp, hf⟩ := h.owner hy hyc
  obtain ⟨hs, hd⟩ := h.bound hp
  refine ⟨s, d, hp, hf.imp (fun hf => ?_) fun hf => ?_⟩
  · rw [hm.find_absorb h.finds h.shape hs, hf, hyn]
  · rw [hm.find_absorb h.finds h.shape hd, hf, hyn]

/-- Degrees still count `v`. -/
theorem Tidy.degree_absorb (hx : x < c.size) (hxp : (c.absorb u v).node x ≠ .precolored)
    (hxi : (c.absorb u v).InGraph x) : (c.absorb u v).degreeOf x =
      ((c.absorb u v).adjacent x).length +
        ({ hard := H, idle := [u], pending := c.adjacent v } : Slack).excess x := by
  obtain ⟨hxi', hxv⟩ := (h.shape.inGraph_absorb hm.lt_right).mp hxi
  rw [h.shape.node_absorb hm.lt_right, if_neg hxv] at hxp
  have hdeg := h.degree hx hxp hxi'
  rw [show ({ hard := H, idle := [u, v] } : Slack).excess x = 0 from if_neg (by simp),
    Int.add_zero, length_adjacent_leave (c.absorb u v) h.graph rfl
      (fun y => h.shape.inGraph_absorb hm.lt_right) hm.lt_right hm.right_ne_precolored
      hm.inGraph_right hx hxp hxi'] at hdeg
  exact hdeg

theorem Tidy.listed_absorb (x : Nat) :
    (c.absorb u v).Listed { hard := H, idle := [u], pending := c.adjacent v } x := by
  have hnode := h.shape.node_absorb (x := x) (u := u) hm.lt_right
  by_cases hxv : x = v
  · -- it is on no list that has a rule
    rw [if_pos hxv] at hnode
    constructor <;> simp [hnode]
  rw [if_neg hxv] at hnode
  have hrel : x ≠ u → (c.absorb u v).isMoveRelated x = c.isMoveRelated x := by
    intro hxu
    rw [Bool.eq_iff_iff, isMoveRelated_iff, isMoveRelated_iff,
      h.shape.relatedOf_absorb hm.lt_left, if_neg hxu]
    rfl
  refine ⟨fun hx hb => ?_, fun hx => h.spillable (hnode ▸ hx), fun hx hh => h.light (hnode ▸ hx) hh,
    fun hx hi => ?_, fun hx hh => h.ready (hnode ▸ hx) hh⟩
  · have hxu : x ≠ u := by
      rintro rfl
      rw [hnode] at hx
      rcases hm.left with hl | hl | hl <;> rw [hl] at hx <;> simp at hx
    rw [hrel hxu]
    exact h.quiet (hnode ▸ hx) hb
  · have hxu : x ≠ u := by simpa using hi
    rw [hrel hxu]
    exact h.related (hnode ▸ hx) (by simp [hxu, hxv])

theorem Tidy.absorb :
    (c.absorb u v).Tidy { hard := H, idle := [u], pending := c.adjacent v } where
  shape := h.shape.absorb hm.lt_right
  graph := by
    refine h.graph.congr rfl rfl rfl fun x => ?_
    rw [h.shape.node_absorb hm.lt_right]
    by_cases hx : x = v
    · simp [hx, hm.right_ne_precolored]
    · rw [if_neg hx]
  finds := hm.finds_absorb h.finds h.shape
  bound := h.bound
  states := by
    intro x hx
    rw [h.shape.node_absorb hm.lt_right]
    split
    · decide
    · exact h.states hx
  pair := h.pair
  ends := fun hmo hp => ⟨h.mem_relatedOf_absorb hm hmo (h.bound hp).1 (h.ends hmo hp).1,
    h.mem_relatedOf_absorb hm hmo (h.bound hp).2 (h.ends hmo hp).2⟩
  owner := h.owner_absorb hm
  degree := h.degree_absorb hm
  quiet := (h.listed_absorb hm _).quiet
  spillable := (h.listed_absorb hm _).spillable
  light := (h.listed_absorb hm _).light
  related := (h.listed_absorb hm _).related
  ready := (h.listed_absorb hm _).ready

end Absorb

/-- Two nodes of the graph may interfere from now on if both may have too many neighbours. -/
theorem Tidy.connect (h : c.Tidy w) (ht : t < c.size) (hu : u < c.size) (hti : c.InGraph t)
    (hui : c.InGraph u) (htu : t ≠ u) (hth : t ∈ w.heavy) (huh : u ∈ w.heavy) :
    (c.connect t u).Tidy w := by
  by_cases hi : c.interferes t u = true
  · rwa [connect_of_interferes hi]
  have hi' : c.interferes t u = false := by simpa using hi
  have hr := sameRest_connect c t u
  have hrel : ∀ x, (c.connect t u).isMoveRelated x = c.isMoveRelated x := fun x =>
    hr.sorts.isMoveRelated_eq fun m => by rw [hr.move]
  have hdeg := fun x => h.shape.degreeOf_connect (x := x) ht hu htu hi'
  have hnb := fun x => h.shape.neighboursOf_connect (x := x) ht hu htu hi'
  have hadj : ∀ x, (c.connect t u).adjacent x =
      ((c.connect t u).neighboursOf x).filter fun y => c.node y ≠ .selected && c.node y ≠ .coalesced := by
    intro x
    unfold adjacent neighboursOf
    refine filter_congr fun y _ => ?_
    rw [hr.node]
  have hle : ∀ x, c.degreeOf x ≤ (c.connect t u).degreeOf x := by
    intro x
    rw [hdeg]
    split
    · omega
    · split <;> omega
  have heq : ∀ x, x ∉ w.heavy → (c.connect t u).degreeOf x = c.degreeOf x := by
    intro x hx
    rw [hdeg, if_neg, if_neg]
    · rintro ⟨rfl, -⟩
      exact hx huh
    · rintro ⟨rfl, -⟩
      exact hx hth
  have hlen : ∀ {x y}, c.InGraph y → ((c.neighboursOf x ++ [y]).filter
      fun y => c.node y ≠ .selected && c.node y ≠ .coalesced).length = (c.adjacent x).length + 1 := by
    intro x y hy
    have hkeep : (c.node y ≠ .selected && c.node y ≠ .coalesced : Bool) = true := by
      simpa [InGraph] using hy
    rw [filter_append, filter_singleton, hkeep, length_append]
    rfl
  refine h.resort hr.sorts (h.shape.connect t u) (h.graph.connect h.shape ht hu htu)
    (fun m hm => hr.move m ▸ hm) ?_ fun x => ?_
  · intro x hx hxp hxi
    have hd := h.degree hx hxp hxi
    have hdx := hdeg x
    have hnx := hnb x
    by_cases hxt : x = t
    · subst hxt
      rw [if_pos ⟨rfl, hxp⟩] at hdx hnx
      rw [hdx, hadj, hnx, hlen hui]
      omega
    rw [if_neg fun hh => hxt hh.1] at hdx hnx
    by_cases hxu : x = u
    · subst hxu
      rw [if_pos ⟨rfl, hxp⟩] at hdx hnx
      rw [hdx, hadj, hnx, hlen hti]
      omega
    rw [if_neg fun hh => hxu hh.1] at hdx hnx
    rw [hdx, hadj, hnx]
    exact hd
  · exact (h.listed x).stay hr.k (hr.node x) (hrel x) (fun hh => (heq x hh).le) fun hx =>
      (h.spillable hx).trans (hle x)

theorem Tidy.passOn {rest : List Nat}
    (h : c.Tidy { hard := H, idle := [u], pending := t :: rest, heavy := [u] }) (hn : t ∉ rest)
    (ht : t < c.size) (hu : u < c.size) (hti : c.InGraph t) (hui : c.InGraph u) (htu : t ≠ u) :
    ((c.connect t u).decrement t).Tidy { hard := H, idle := [u], pending := rest, heavy := [u] } ∧
      Sorts c ((c.connect t u).decrement t) ∧
      ((c.connect t u).decrement t).node u = c.node u ∧
      ∀ {x y}, ((c.connect t u).decrement t).interferes x y = true ↔
        c.interferes x y = true ∨ x = t ∧ y = u ∨ x = u ∧ y = t := by
  have hr := sameRest_connect c t u
  have hts : t < (c.connect t u).size := hr.size.symm ▸ ht
  have hsift := (h.shape.connect t u).sifts_decrement hts
  have hint : ∀ {x y}, ((c.connect t u).decrement t).interferes x y = true ↔
      c.interferes x y = true ∨ x = t ∧ y = u ∨ x = u ∧ y = t := by
    intro x y
    rw [hsift.interferes_eq, h.graph.interferes_connect h.shape ht hu htu]
  refine ⟨?_, hr.sorts.trans hsift.toSorts, ?_, hint⟩
  · have h1 : c.Tidy { hard := H, idle := [u], pending := t :: rest, heavy := [t, u] } :=
      { h with
        light := fun hx hh => h.light hx fun hh' => hh (mem_cons_of_mem t hh')
        ready := fun hx hh => h.ready hx fun hh' => hh (mem_cons_of_mem t hh') }
    have h2 := h1.connect ht hu hti hui htu (by simp) (by simp)
    have h3 := Tidy.decrement (w := { hard := H, idle := [u], heavy := [t, u] }) h2 hn hts
    -- the degree that `t` gained is lost again
    have hdeg : (c.connect t u).degreeOf t ≤ c.degreeOf t + 1 := by
      by_cases hi : c.interferes t u = true
      · rw [connect_of_interferes hi]
        omega
      · rw [h.shape.degreeOf_connect ht hu htu (by simpa using hi)]
        split
        · omega
        · split <;> omega
    have htu' : t ∉ [u] := by simpa using htu
    by_cases hp : (c.connect t u).node t = .precolored
    · rw [decrement_of_machine hp] at h3 ⊢
      exact Tidy.drop_heavy (w := { hard := H, idle := [u], pending := rest, heavy := [u] }) h3
        (fun hx => by rw [hp] at hx; cases hx) (fun hx => by rw [hp] at hx; cases hx)
    · have hdec := decrements (h.shape.connect t u) hts hp
      have hd := hdec.degreeOf t
      rw [if_pos rfl] at hd
      have hk : ((c.connect t u).decrement t).k = c.k := hsift.k.trans hr.k
      have hself : ((c.connect t u).decrement t).node t = c.node t ∨
          (c.connect t u).degreeOf t = c.k := by
        rw [hdec.node, if_pos rfl]
        unfold sinks
        by_cases hs : (c.connect t u).node t = .spillable ∧
            (c.connect t u).degreeOf t = (c.connect t u).k
        · right
          rw [hs.2, hr.k]
        · left
          rw [if_neg hs, hr.node]
      refine Tidy.drop_heavy (w := { hard := H, idle := [u], pending := rest, heavy := [u] }) h3
        (fun hx _ => ?_) (fun hx _ => ?_)
      · rw [hk]
        rcases hself with hs | hs
        · have := h.light (hs ▸ hx) htu'
          omega
        · omega
      · rw [hk]
        rcases hself with hs | hs
        · rcases h.ready (hs ▸ hx) htu' with h4 | h4
          · exact Or.inl (by omega)
          · exact Or.inr h4
        · exact Or.inl (by omega)
  · by_cases hp : (c.connect t u).node t = .precolored
    · rw [decrement_of_machine hp, hr.node]
    · rw [(decrements (h.shape.connect t u) hts hp).node, if_neg (Ne.symm htu), hr.node]

theorem Tidy.passOnAll (list : List Nat)
    (h : c.Tidy { hard := H, idle := [u], pending := list, heavy := [u] }) (hnd : list.Nodup)
    (hu : u < c.size) (hui : c.InGraph u) (hlist : ∀ t ∈ list, t < c.size ∧ c.InGraph t ∧ t ≠ u) :
    (list.foldl (fun c t => (c.connect t u).decrement t) c).Tidy
        { hard := H, idle := [u], heavy := [u] } ∧
      Sorts c (list.foldl (fun c t => (c.connect t u).decrement t) c) ∧
      (list.foldl (fun c t => (c.connect t u).decrement t) c).node u = c.node u ∧
      ∀ {x y}, (list.foldl (fun c t => (c.connect t u).decrement t) c).interferes x y = true ↔
        c.interferes x y = true ∨ x ∈ list ∧ y = u ∨ x = u ∧ y ∈ list := by
  induction list generalizing c with
  | nil =>
    refine ⟨h, Sorts.refl c, rfl, fun {x y} => ?_⟩
    simp
  | cons t rest ih =>
    obtain ⟨hn, hnd'⟩ := nodup_cons.mp hnd
    obtain ⟨ht, hti, htu⟩ := hlist t mem_cons_self
    obtain ⟨h1, h2, h3, h4⟩ := h.passOn hn ht hu hti hui htu
    have hrest : ∀ x ∈ rest, x < ((c.connect t u).decrement t).size ∧
        ((c.connect t u).decrement t).InGraph x ∧ x ≠ u := by
      intro x hx
      obtain ⟨g1, g2, g3⟩ := hlist x (mem_cons_of_mem t hx)
      exact ⟨h2.size.symm ▸ g1, h2.inGraph_iff.mpr g2, g3⟩
    obtain ⟨g1, g2, g3, g4⟩ := ih h1 hnd' (h2.size.symm ▸ hu) (h2.inGraph_iff.mpr hui) hrest
    rw [foldl_cons]
    refine ⟨g1, h2.trans g2, g3.trans h3, fun {x y} => ?_⟩
    rw [g4, h4, mem_cons, mem_cons, or_and_right, and_or_left]
    exact iff_of_eq (by ac_rfl)

theorem Tidy.combine (h : c.Tidy { hard := H, idle := [u, v] }) (hm : c.Mergeable u v) :
    (c.combine u v).Tidy { hard := H, idle := [u] } ∧ Sorts (c.absorb u v) (c.combine u v) ∧
      ∀ {x y}, (c.combine u v).interferes x y = true ↔
        c.interferes x y = true ∨ x ∈ c.adjacent v ∧ y = u ∨ x = u ∧ y ∈ c.adjacent v := by
  have h1 := h.absorb hm
  have h2 : (c.absorb u v).Tidy
      { hard := H, idle := [u], pending := c.adjacent v, heavy := [u] } :=
    { h1 with
      light := fun hx _ => h1.light hx (by simp)
      ready := fun hx _ => h1.ready hx (by simp) }
  have hlist : ∀ t ∈ c.adjacent v, t < c.size ∧ (c.absorb u v).InGraph t ∧ t ≠ u := by
    intro t ht
    obtain ⟨g1, g2⟩ := (h.graph.mem_adjacent hm.lt_right hm.right_ne_precolored).mp ht
    refine ⟨h.graph.lt_right g1, (h.shape.inGraph_absorb hm.lt_right).mpr
      ⟨g2, (h.graph.ne g1).symm⟩, ?_⟩
    rintro rfl
    have := hm.apart
    rw [h.graph.comm, g1] at this
    cases this
  have hui : (c.absorb u v).InGraph u :=
    (h.shape.inGraph_absorb hm.lt_right).mpr ⟨hm.inGraph_left, hm.ne⟩
  have hnodeu : (c.absorb u v).node u = c.node u := by
    rw [h.shape.node_absorb hm.lt_right, if_neg hm.ne]
  obtain ⟨h3, h4, h5, h6⟩ := h2.passOnAll _ h.graph.nodup_adjacent hm.lt_left hui hlist
  rw [combine_eq, hm.adjacent_absorb h.graph h.shape]
  dsimp only
  generalize (c.adjacent v).foldl (fun c t => (c.connect t u).decrement t) (c.absorb u v) = c1 at *
  by_cases hfat : ((c1.k : Int) ≤ c1.degreeOf u && c1.node u = .freezeable) = true
  · rw [if_pos hfat]
    simp only [Bool.and_eq_true, decide_eq_true_eq] at hfat
    have hlt : u < c1.size := h4.size.symm ▸ hm.lt_left
    have hsift := h3.shape.sifts_setNode (Or.inl hfat.2) (Or.inr (Or.inr rfl))
    have hnode := fun x => h3.shape.node_setNode (a := x) (s := .spillable) hlt
    refine ⟨?_, h4.trans hsift.toSorts, h6⟩
    refine h3.sort hsift (h3.shape.setNode hlt (by decide)) (fun _ hx => hx) (fun _ => h3.degree)
      fun x => ?_
    by_cases hxu : x = u
    · subst hxu
      refine ⟨?_, fun _ => hfat.1, ?_, ?_, ?_⟩ <;> rw [hnode, if_pos rfl]
      · exact fun hx => by rcases hx with hx | hx <;> cases hx
      all_goals nofun
    · have hlisted : (c1.setNode u .spillable).Listed _ x := (h3.listed x).stay rfl
        (by rw [hnode, if_neg hxu]) rfl (fun _ => le_rfl) h3.spillable
      have hheavy : x ∉ [u] := by simpa using hxu
      exact { hlisted with
        light := fun hx _ => hlisted.light hx hheavy, ready := fun hx _ => hlisted.ready hx hheavy }
  · rw [if_neg hfat]
    refine ⟨Tidy.drop_heavy (w := { hard := H, idle := [u] }) h3 (fun hx _ => ?_) (fun hx _ => ?_),
      h4, h6⟩
    · by_contra hge
      exact hfat (by simp [hx]; omega)
    · rw [h5, hnodeu] at hx
      rcases hm.left with hl | hl | hl <;> rw [hl] at hx <;> cases hx

end Combine

end Codegen.Coloring
