import Codegen.Proofs.Coloring.Tidy

/-!
# Steps keep colorings tidy

What the parts of a step do, and that each step leaves a tidy coloring tidy. Every rule that a part
puts out of force for some nodes is restored by a later part of the same step.
-/

namespace Codegen.Coloring

variable {c c' c'' : Coloring} {w : Slack} {m n s d t u v x : Nat}

/-! ### Looking at moves again -/

/-- Only moves differ, and those only by being looked at again. -/
structure Wakes (c c' : Coloring) : Prop where
  eq : c' = { c with moves := c'.moves }
  wf : c'.moves.Wf c.live.refs.size
  move : ∀ m, c'.move m = c.move m ∨ c.move m = .active ∧ c'.move m = .coalescable

theorem Wakes.refl (h : c.Shape) : Wakes c c := ⟨rfl, h.moves, fun _ => Or.inl rfl⟩

theorem Wakes.trans (h : Wakes c c') (h' : Wakes c' c'') : Wakes c c'' := by
  have hlive : c'.live = c.live := by rw [h.eq]
  refine ⟨?_, hlive ▸ h'.wf, fun m => ?_⟩
  · have h1 := h'.eq
    rw [h.eq] at h1
    exact h1
  · rcases h.move m with h1 | ⟨h1, h2⟩
    · rw [← h1]
      exact h'.move m
    · rcases h'.move m with h3 | ⟨h3, -⟩
      · exact Or.inr ⟨h1, h3.trans h2⟩
      · rw [h2] at h3
        cases h3

namespace Wakes

variable (h : Wakes c c')
include h

theorem nodes : c'.nodes = c.nodes := by rw [h.eq]
theorem degree : c'.degree = c.degree := by rw [h.eq]

theorem sifts : Sifts c c' := by
  rw [h.eq]
  exact ⟨⟨rfl, rfl, rfl, rfl, rfl, rfl, rfl, fun _ => Or.inl rfl, rfl, rfl⟩, rfl, rfl⟩

theorem shape (hs : c.Shape) : c'.Shape := by
  have hwf := h.wf
  rw [h.eq]
  exact { hs with moves := hwf }

theorem node_eq (n : Nat) : c'.node n = c.node n := by
  unfold Coloring.node
  rw [h.nodes]

theorem degreeOf_eq (n : Nat) : c'.degreeOf n = c.degreeOf n := by
  unfold Coloring.degreeOf
  rw [h.degree]

end Wakes

theorem wakes_foldl (list : List Nat) (h : c.Shape) :
    Wakes c (list.foldl
      (fun c m => if c.move m = .active then c.setMove m .coalescable else c) c) := by
  induction list generalizing c with
  | nil => exact Wakes.refl h
  | cons m rest ih =>
    rw [List.foldl_cons]
    by_cases hm : c.move m = .active
    · rw [if_pos hm]
      have hlt : m < c.live.refs.size := h.lt_of_isOpen (by rw [hm]; rfl)
      have hshape := h.setMove hlt (s := .coalescable) (by decide)
      refine Wakes.trans ⟨rfl, hshape.moves, fun x => ?_⟩ (ih hshape)
      rw [h.move_setMove hlt]
      by_cases hx : x = m
      · subst hx
        exact Or.inr ⟨hm, if_pos rfl⟩
      · exact Or.inl (if_neg hx)
    · rw [if_neg hm]
      exact ih h

theorem wakes_enableMoves (n : Nat) (h : c.Shape) : Wakes c (c.enableMoves n) := wakes_foldl _ h

theorem wakes_enableAll (list : List Nat) (h : c.Shape) : Wakes c (list.foldl enableMoves c) := by
  induction list generalizing c with
  | nil => exact Wakes.refl h
  | cons n rest ih =>
    have h1 := wakes_enableMoves n h
    exact h1.trans (ih (h1.shape h))

/-! ### Losing a neighbour -/

/-- What becomes of the node that loses a neighbour. -/
def sinks (c : Coloring) (n : Nat) : NodeState :=
  if c.node n = .spillable ∧ c.degreeOf n = c.k then
    if c.isMoveRelated n then .freezeable else .removable
  else c.node n

/-- What losing a neighbour does. -/
structure Decrements (n : Nat) (c c' : Coloring) : Prop where
  sifts : Sifts c c'
  shape : c'.Shape
  move : ∀ m, c'.move m = c.move m ∨ c.move m = .active ∧ c'.move m = .coalescable
  degreeOf : ∀ x, c'.degreeOf x = if x = n then c.degreeOf x - 1 else c.degreeOf x
  node : ∀ x, c'.node x = if x = n then c.sinks n else c.node x

theorem decrement_of_machine (h : c.node n = .precolored) : c.decrement n = c := by
  simp [decrement, isMachine, h]

theorem Shape.degreeOf_modify (h : c.Shape) (hn : n < c.size) (f : Int → Int) :
    ({ c with degree := c.degree.modify n f } : Coloring).degreeOf x =
      if x = n then f (c.degreeOf x) else c.degreeOf x := by
  unfold degreeOf
  rw [getD_modify]
  by_cases hx : x = n
  · subst hx
    rw [if_pos ⟨rfl, h.degree.symm ▸ hn⟩, if_pos rfl]
  · rw [if_neg fun hh => hx hh.1.symm, if_neg hx]

/-- Between the lists of the graph, a change of state is sorting. -/
theorem Shape.sifts_setNode (h : c.Shape) (hn : c.node n = .freezeable ∨ c.node n = .spillable)
    {st : NodeState} (hst : st = .removable ∨ st = .freezeable ∨ st = .spillable) :
    Sifts c (c.setNode n st) := by
  have hlt : n < c.size := h.lt_of_node (by rcases hn with hn | hn <;> rw [hn] <;> decide)
  have hlist : ∀ s', s' ≠ st → s' ≠ c.node n → (c.setNode n st).nodes.list s' = c.nodes.list s' :=
    fun s' h1 h2 => h.nodes.list_set_of_ne h1 h2
  refine ⟨⟨rfl, rfl, rfl, rfl, rfl, rfl, rfl, fun x => ?_, hlist _ ?_ ?_, hlist _ ?_ ?_⟩, rfl, rfl⟩
  · rw [h.node_setNode hlt]
    by_cases hx : x = n
    · subst hx
      rw [if_pos rfl]
      exact Or.inr ⟨hn, hst⟩
    · exact Or.inl (if_neg hx)
  · rcases hst with rfl | rfl | rfl <;> decide
  · rcases hn with hn | hn <;> rw [hn] <;> decide
  · rcases hst with rfl | rfl | rfl <;> decide
  · rcases hn with hn | hn <;> rw [hn] <;> decide

theorem decrements (h : c.Shape) (hn : n < c.size) (hp : c.node n ≠ .precolored) :
    Decrements n c (c.decrement n) := by
  unfold decrement
  rw [if_neg (by simpa [isMachine] using hp)]
  -- the degree is counted down first
  have hdeg := fun x => h.degreeOf_modify (x := x) hn (· - 1)
  have hshape : Shape { c with degree := c.degree.modify n (· - 1) } :=
    { h with degree := Array.size_modify.trans h.degree }
  have hsift : Sifts c { c with degree := c.degree.modify n (· - 1) } :=
    ⟨⟨rfl, rfl, rfl, rfl, rfl, rfl, rfl, fun _ => Or.inl rfl, rfl, rfl⟩, rfl, rfl⟩
  generalize hc1 : ({ c with degree := c.degree.modify n (· - 1) } : Coloring) = c1 at *
  have hk : c1.k = c.k := by rw [← hc1]
  have hnode : ∀ x, c1.node x = c.node x := fun x => by rw [← hc1]; rfl
  have hmove : ∀ x, c1.move x = c.move x := fun x => by rw [← hc1]; rfl
  have hdn : c1.degreeOf n = c.degreeOf n - 1 := by rw [hdeg, if_pos rfl]
  by_cases hd : c1.degreeOf n ≠ (c1.k : Int) - 1
  · rw [if_pos hd]
    have hsink : c.sinks n = c.node n := by
      unfold sinks
      rw [if_neg]
      rintro ⟨-, hk'⟩
      exact hd (by omega)
    refine ⟨hsift, hshape, fun m => Or.inl (hmove m), hdeg, fun x => ?_⟩
    by_cases hx : x = n
    · rw [if_pos hx, hsink, hx, hnode]
    · rw [if_neg hx, hnode]
  · rw [if_neg hd]
    dsimp only
    -- then the moves around the node are woken
    have hw1 := wakes_enableMoves n hshape
    have hw : Wakes c1 (((c1.enableMoves n).adjacent n).foldl enableMoves (c1.enableMoves n)) :=
      hw1.trans (wakes_enableAll _ (hw1.shape hshape))
    generalize ((c1.enableMoves n).adjacent n).foldl enableMoves (c1.enableMoves n) = c2 at *
    have hs2 := hsift.trans hw.sifts
    have hmove2 : ∀ m, c2.move m = c.move m ∨ c.move m = .active ∧ c2.move m = .coalescable := by
      intro m
      rw [← hmove m]
      exact hw.move m
    have hdeg2 : ∀ x, c2.degreeOf x = if x = n then c.degreeOf x - 1 else c.degreeOf x := by
      intro x
      rw [hw.degreeOf_eq, hdeg]
    have hnode2 : ∀ x, c2.node x = c.node x := fun x => (hw.node_eq x).trans (hnode x)
    have hdk : c.degreeOf n = c.k := by omega
    by_cases hsp : c2.node n ≠ .spillable
    · rw [if_pos hsp]
      refine ⟨hs2, hw.shape hshape, hmove2, hdeg2, fun x => ?_⟩
      have hsink : c.sinks n = c.node n := by
        unfold sinks
        rw [if_neg]
        rintro ⟨hs', -⟩
        exact hsp (by rw [hnode2, hs'])
      by_cases hx : x = n
      · rw [if_pos hx, hsink, hx, hnode2]
      · rw [if_neg hx, hnode2]
    · -- last the node changes its list
      rw [if_neg hsp]
      have hsp' : c.node n = .spillable := by rw [← hnode2]; exact not_not.mp hsp
      have hrel : c2.isMoveRelated n = c.isMoveRelated n := by
        refine hs2.isMoveRelated_eq fun m => ?_
        rcases hmove2 m with h1 | ⟨h1, h2⟩
        · rw [h1]
        · rw [h1, h2]
          rfl
      have hsink : c.sinks n = if c.isMoveRelated n then .freezeable else .removable := by
        unfold sinks
        rw [if_pos ⟨hsp', hdk⟩]
      have hlt2 : n < c2.size := hs2.size.symm ▸ hn
      have hset : ∀ st, st = .removable ∨ st = .freezeable ∨ st = .spillable →
          st = c.sinks n → Decrements n c (c2.setNode n st) := by
        intro st hst hst'
        have hsh2 := hw.shape hshape
        refine ⟨hs2.trans (hsh2.sifts_setNode (Or.inr (not_not.mp hsp)) hst),
          hsh2.setNode hlt2 (by rcases hst with rfl | rfl | rfl <;> decide), hmove2, hdeg2,
          fun x => ?_⟩
        rw [hsh2.node_setNode hlt2, hst', hnode2]
      rw [hrel]
      cases hr : c.isMoveRelated n with
      | true =>
        rw [if_pos rfl]
        exact hset _ (Or.inr (Or.inl rfl)) (by rw [hsink, hr]; rfl)
      | false =>
        rw [if_neg (by decide)]
        exact hset _ (Or.inl rfl) (by rw [hsink, hr]; rfl)

theorem Decrements.isOpen_eq (h : Decrements n c c') (m : Nat) :
    (c'.move m).isOpen = (c.move m).isOpen := by
  rcases h.move m with h1 | ⟨h1, h2⟩
  · rw [h1]
  · rw [h1, h2]
    rfl

theorem excess_cons {p : List Nat} (hn : n ∉ p) :
    ({ w with pending := n :: p } : Slack).excess x =
      ({ w with pending := p } : Slack).excess x + if x = n then 1 else 0 := by
  unfold Slack.excess
  by_cases hx : x = n
  · subst hx
    simp [hn]
  · simp [hx]

/-- Counting down the degree of a node settles a pending loss. -/
theorem Tidy.decrement {p : List Nat} (h : c.Tidy { w with pending := n :: p }) (hn : n ∉ p)
    (hlt : n < c.size) : (c.decrement n).Tidy { w with pending := p } := by
  by_cases hp : c.node n = .precolored
  · rw [decrement_of_machine hp]
    refine { h with degree := fun {x} hx hxp hxg => ?_ }
    have hne : x ≠ n := fun hxn => hxp (hxn ▸ hp)
    rw [h.degree hx hxp hxg, excess_cons hn, if_neg hne, Int.add_zero]
  have hdec := decrements h.shape hlt hp
  have hopen := hdec.isOpen_eq
  have hrel : ∀ x, (c.decrement n).isMoveRelated x = c.isMoveRelated x :=
    fun x => hdec.sifts.isMoveRelated_eq hopen
  have hold : ∀ x, x ≠ n → (c.decrement n).node x = c.node x := fun x hx => by
    rw [hdec.node, if_neg hx]
  -- the node itself either keeps its state or comes down from `spillable`
  have hself : (c.decrement n).node n = c.node n ∧ (c.node n = .spillable → c.degreeOf n ≠ c.k) ∨
      c.degreeOf n = c.k ∧
        (c.decrement n).node n = if c.isMoveRelated n then .freezeable else .removable := by
    rw [hdec.node, if_pos rfl]
    unfold sinks
    by_cases hs : c.node n = .spillable ∧ c.degreeOf n = c.k
    · rw [if_pos hs]
      exact Or.inr ⟨hs.2, rfl⟩
    · rw [if_neg hs]
      exact Or.inl ⟨rfl, fun h1 h2 => hs ⟨h1, h2⟩⟩
  refine h.sort hdec.sifts hdec.shape (fun m hm => hopen m ▸ hm) ?_ fun x => ?_
  · intro x hx hxp hxg
    rw [hdec.degreeOf]
    have hdx := h.degree hx hxp hxg
    rw [excess_cons hn] at hdx
    split
    · rename_i hxn
      rw [if_pos hxn] at hdx
      omega
    · rename_i hxn
      rw [if_neg hxn, Int.add_zero] at hdx
      exact hdx
  · have hlisted : c.Listed { w with pending := p } x := { h.listed x with }
    have hdx := hdec.degreeOf x
    by_cases hxn : x = n
    · subst hxn
      rw [if_pos rfl] at hdx
      obtain ⟨h1, h2⟩ | ⟨h1, h2⟩ := hself
      · refine hlisted.stay hdec.sifts.k h1 (hrel x) (fun _ => by omega) fun hsp => ?_
        have := h.spillable hsp
        have := h2 hsp
        omega
      · have hlt' : (c.decrement x).degreeOf x < (c.decrement x).k := by
          rw [hdec.sifts.k]
          omega
        refine ⟨fun hx _ => ?_, fun hx => ?_, fun _ _ => hlt', fun hx _ => ?_, fun _ _ => Or.inl hlt'⟩
        all_goals
          rw [h2] at hx
          cases hr : c.isMoveRelated x <;> simp_all
    · rw [if_neg hxn] at hdx
      exact hlisted.stay hdec.sifts.k (hold x hxn) (hrel x) (fun _ => hdx.le) fun hsp =>
        hdx ▸ h.spillable hsp

/-! ### Deciding moves -/

theorem sifts_setMove (c : Coloring) (m : Nat) (st : MoveState) : Sifts c (c.setMove m st) :=
  ⟨⟨rfl, rfl, rfl, rfl, rfl, rfl, rfl, fun _ => Or.inl rfl, rfl, rfl⟩, rfl, rfl⟩

/-- An open move may stay open. -/
theorem Tidy.reopen (h : c.Tidy w) (hm : (c.move m).isOpen = true) {st : MoveState}
    (hst : st.isOpen = true) : (c.setMove m st).Tidy w := by
  have hlt := h.shape.lt_of_isOpen hm
  have hopen : ∀ x, ((c.setMove m st).move x).isOpen = (c.move x).isOpen := by
    intro x
    rw [h.shape.move_setMove hlt]
    by_cases hx : x = m
    · rw [if_pos hx, hx, hst, hm]
    · rw [if_neg hx]
  have hrel := fun x => (sifts_setMove c m st).isMoveRelated_eq (n := x) hopen
  refine h.sort (sifts_setMove c m st) (h.shape.setMove hlt (by rintro rfl; cases hst))
    (fun x hx => hopen x ▸ hx) (fun _ => h.degree) fun x => ?_
  exact (h.listed x).stay rfl rfl (hrel x) (fun _ => le_rfl) h.spillable

/-- A decided move leaves at most the nodes that stand for its registers without moves. -/
theorem Tidy.close (h : c.Tidy w) (hm : m < c.live.refs.size)
    (hp : c.live.movePair? m = some (s, d)) (st : MoveState) (hst : st.isOpen = false)
    (hne : st ≠ .none) :
    (c.setMove m st).Tidy { w with idle := c.find s :: c.find d :: w.idle } := by
  have hmove := fun x => h.shape.move_setMove (a := x) (s := st) hm
  have hopen : ∀ x, ((c.setMove m st).move x).isOpen = true → (c.move x).isOpen = true := by
    intro x hx
    rw [hmove] at hx
    by_cases hxm : x = m
    · rw [if_pos hxm, hst] at hx
      cases hx
    · rwa [if_neg hxm] at hx
  refine h.sort (sifts_setMove c m st) (h.shape.setMove hm hne) hopen (fun _ => h.degree)
    fun n => { h.listed n with quiet := fun hn hb => ?_, related := fun hn hi => ?_ }
  · rw [Bool.eq_false_iff]
    intro hrel
    obtain ⟨x, hx, hxo⟩ := isMoveRelated_iff.mp hrel
    have hrel' : c.isMoveRelated n = true := isMoveRelated_iff.mpr ⟨x, hx, hopen x hxo⟩
    rw [h.quiet hn hb] at hrel'
    cases hrel'
  · simp only [List.mem_cons, not_or] at hi
    obtain ⟨x, hx, hxo⟩ := isMoveRelated_iff.mp (h.related hn hi.2.2)
    -- the move that the node keeps is another one
    have hxm : x ≠ m := by
      rintro rfl
      obtain ⟨s', d', hp', hf⟩ := h.owner hx (by rw [show c.node n = .freezeable from hn]; decide)
      rw [hp] at hp'
      obtain ⟨rfl, rfl⟩ := Prod.mk.inj (Option.some.inj hp')
      rcases hf with hf | hf
      · exact hi.1 hf.symm
      · exact hi.2.1 hf.symm
    refine isMoveRelated_iff.mpr ⟨x, hx, ?_⟩
    rw [hmove, if_neg hxm]
    exact hxo

/-- What `unfreeze` does: nothing, or the node is to be taken out. -/
theorem unfreeze_cases (c : Coloring) (n : Nat) :
    c.unfreeze n = c ∧
        (c.node n = .freezeable → c.isMoveRelated n = false → ¬ c.degreeOf n < c.k) ∨
      c.unfreeze n = c.setNode n .removable ∧ c.node n = .freezeable ∧
        c.isMoveRelated n = false ∧ c.degreeOf n < c.k := by
  unfold unfreeze
  by_cases h : (c.node n = .freezeable && !c.isMoveRelated n && c.degreeOf n < c.k) = true
  · rw [if_pos h]
    simp only [Bool.and_eq_true, decide_eq_true_eq, Bool.not_eq_true'] at h
    exact Or.inr ⟨rfl, h.1.1, h.1.2, h.2⟩
  · rw [if_neg h]
    refine Or.inl ⟨rfl, fun h1 h2 h3 => h ?_⟩
    simp [h1, h2, h3]

theorem Shape.sifts_unfreeze (h : c.Shape) (n : Nat) :
    Sifts c (c.unfreeze n) ∧ (c.unfreeze n).moves = c.moves := by
  rcases unfreeze_cases c n with ⟨h1, -⟩ | ⟨h1, h2, -, -⟩
  · rw [h1]
    exact ⟨Sifts.refl c, rfl⟩
  · rw [h1]
    exact ⟨h.sifts_setNode (Or.inl h2) (Or.inl rfl), rfl⟩

/-- A node that is to be taken out whatever its moves. -/
theorem Tidy.release (h : c.Tidy w) (hn : c.node n = .freezeable ∨ c.node n = .spillable)
    (hready : c.degreeOf n < c.k ∨ w.hard n) :
    (c.setNode n .removable).Tidy { w with busy := n :: w.busy } := by
  have hlt : n < c.size := h.shape.lt_of_node (by rcases hn with hn | hn <;> rw [hn] <;> decide)
  have hnode := fun x => h.shape.node_setNode (a := x) (s := .removable) hlt
  have hold : ∀ x, x ≠ n → (c.setNode n .removable).node x = c.node x := fun x hx => by
    rw [hnode, if_neg hx]
  have hself : (c.setNode n .removable).node n = .removable := by rw [hnode, if_pos rfl]
  refine h.sort (h.shape.sifts_setNode hn (Or.inl rfl)) (h.shape.setNode hlt (by decide))
    (fun _ hm => hm) (fun _ => h.degree) fun x => ?_
  by_cases hxn : x = n
  · subst hxn
    refine ⟨fun _ hb => absurd List.mem_cons_self hb, ?_, ?_, ?_, fun _ _ => hready⟩ <;> rw [hself] <;>
      nofun
  · have hlisted : (c.setNode n .removable).Listed w x :=
      (h.listed x).stay rfl (hold x hxn) rfl (fun _ => le_rfl) h.spillable
    exact { hlisted with quiet := fun hx hb => hlisted.quiet hx fun hb' => hb (List.mem_cons_of_mem n hb') }

/-- Unfreezing takes care of a node that may have lost its last move. -/
theorem Tidy.unfreeze (h : c.Tidy { w with idle := n :: w.idle }) (hn : n ∉ w.heavy) :
    (c.unfreeze n).Tidy w := by
  rcases unfreeze_cases c n with ⟨h1, h2⟩ | ⟨h1, h2, h3, h4⟩
  · rw [h1]
    refine h.drop_idle fun hf => Or.inr ?_
    by_contra hrel
    exact h2 hf (by simpa using hrel) (h.light hf hn)
  · rw [h1]
    refine ((h.release (Or.inl h2) (Or.inl h4)).drop_busy h3).drop_idle fun hf => ?_
    rw [h.shape.node_setNode (h.shape.lt_of_node (by rw [h2]; decide)), if_pos rfl] at hf
    cases hf

/-! ### Giving up moves -/

/-- Giving up one move of a node that is to be taken out. -/
theorem Tidy.freezeMove (h : c.Tidy { w with busy := n :: w.busy }) (hh : w.heavy = [])
    (hn : c.node n = .removable) (hm : m ∈ c.relatedOf n) (hlt : m < c.live.refs.size) :
    (Coloring.freezeMove n c m).Tidy { w with busy := n :: w.busy } ∧
      Sifts c (Coloring.freezeMove n c m) ∧
      ∀ x, (Coloring.freezeMove n c m).move x = if x = m then .frozen else c.move x := by
  obtain ⟨s, d, hp, hf⟩ := h.owner hm (by rw [hn]; decide)
  unfold Coloring.freezeMove
  rw [hp]
  dsimp only
  have hclose := h.close hlt hp .frozen rfl (by decide)
  have hsift := sifts_setMove c m .frozen
  have hun := hclose.shape.sifts_unfreeze (if c.find d = n then c.find s else c.find d)
  refine ⟨?_, hsift.trans hun.1, fun x => ?_⟩
  · refine Tidy.unfreeze (w := { w with busy := n :: w.busy }) ?_ (by simp [hh])
    -- the other idle node is the one that is taken out
    have hself : (c.setMove m .frozen).node n = .freezeable →
        n ∈ (if c.find d = n then c.find s else c.find d) :: w.idle ∨
          (c.setMove m .frozen).isMoveRelated n = true := by
      intro hf'
      rw [show (c.setMove m .frozen).node n = .removable from hn] at hf'
      cases hf'
    refine Tidy.drop_idle
      (w := { w with
        busy := n :: w.busy, idle := (if c.find d = n then c.find s else c.find d) :: w.idle })
      (n := n) ?_ hself
    refine { hclose with related := fun {x} hx hi => hclose.related hx ?_ }
    simp only [List.mem_cons, not_or] at hi ⊢
    by_cases hd : c.find d = n
    · rw [if_pos hd] at hi
      exact ⟨hi.2.1, by rw [hd]; exact hi.1, hi.2.2⟩
    · rw [if_neg hd] at hi
      refine ⟨?_, hi.2.1, hi.2.2⟩
      rw [hf.resolve_right hd]
      exact hi.1
  · have : ∀ c' : Coloring, c'.moves = (c.setMove m .frozen).moves →
        c'.move x = if x = m then .frozen else c.move x := by
      intro c' hc'
      rw [← h.shape.move_setMove hlt]
      unfold Coloring.move
      rw [hc']
    exact this _ hun.2

/-- Giving up the moves of a node that is to be taken out. -/
theorem Tidy.freezeAll (list : List Nat) (h : c.Tidy { w with busy := n :: w.busy })
    (hh : w.heavy = []) (hn : c.node n = .removable)
    (hlist : ∀ m ∈ list, m ∈ c.relatedOf n ∧ m < c.live.refs.size)
    (hall : ∀ m ∈ c.relatedOf n, (c.move m).isOpen = true → m ∈ list) :
    (list.foldl (Coloring.freezeMove n) c).Tidy w ∧
      Sifts c (list.foldl (Coloring.freezeMove n) c) ∧
      ∀ m, (list.foldl (Coloring.freezeMove n) c).move m = c.move m ∨
        (list.foldl (Coloring.freezeMove n) c).move m = .frozen := by
  induction list generalizing c with
  | nil =>
    refine ⟨h.drop_busy (Bool.eq_false_iff.mpr fun hrel => ?_), Sifts.refl c, fun _ => Or.inl rfl⟩
    obtain ⟨m, hm, ho⟩ := isMoveRelated_iff.mp hrel
    cases hall m hm ho
  | cons m rest ih =>
    obtain ⟨hm, hlt⟩ := hlist m List.mem_cons_self
    obtain ⟨h1, h2, h3⟩ := h.freezeMove hh hn hm hlt
    have hn' : (Coloring.freezeMove n c m).node n = .removable := by
      rcases h2.node n with h4 | ⟨h4, -⟩
      · rw [h4, hn]
      · rw [hn] at h4
        rcases h4 with h4 | h4 <;> cases h4
    have hlist' : ∀ x ∈ rest, x ∈ (Coloring.freezeMove n c m).relatedOf n ∧
        x < (Coloring.freezeMove n c m).live.refs.size := by
      intro x hx
      rw [h2.relatedOf_eq, h2.live]
      exact hlist x (List.mem_cons_of_mem m hx)
    have hall' : ∀ x ∈ (Coloring.freezeMove n c m).relatedOf n,
        ((Coloring.freezeMove n c m).move x).isOpen = true → x ∈ rest := by
      intro x hx ho
      rw [h2.relatedOf_eq] at hx
      rw [h3] at ho
      by_cases hxm : x = m
      · rw [if_pos hxm] at ho
        cases ho
      · rw [if_neg hxm] at ho
        exact (List.mem_cons.mp (hall x hx ho)).resolve_left hxm
    obtain ⟨g1, g2, g3⟩ := ih h1 hn' hlist' hall'
    refine ⟨g1, h2.trans g2, fun x => ?_⟩
    rcases g3 x with g4 | g4
    · have h5 := h3 x
      by_cases hxm : x = m
      · rw [if_pos hxm] at h5
        exact Or.inr (g4.trans h5)
      · rw [if_neg hxm] at h5
        exact Or.inl (g4.trans h5)
    · exact Or.inr g4

/-- Letting go of a node decides all its moves. -/
theorem Tidy.giveUp (h : c.Tidy w) (hh : w.heavy = [])
    (hn : c.node n = .freezeable ∨ c.node n = .spillable)
    (hready : c.degreeOf n < c.k ∨ w.hard n) :
    (c.giveUp n).Tidy w ∧ Sifts (c.setNode n .removable) (c.giveUp n) ∧
      ∀ m, (c.giveUp n).move m = c.move m ∨ (c.giveUp n).move m = .frozen := by
  have hlt : n < c.size := h.shape.lt_of_node (by rcases hn with hn | hn <;> rw [hn] <;> decide)
  have h1 := h.release hn hready
  have hself : (c.setNode n .removable).node n = .removable := by
    rw [h.shape.node_setNode hlt, if_pos rfl]
  unfold Coloring.giveUp freezeMoves
  rw [find_of_ne (x := n) (by rw [hself]; decide)]
  dsimp only
  refine h1.freezeAll _ hh hself (fun m hm => ?_) (fun m hm ho => mem_openMoves.mpr ⟨hm, ho⟩)
  obtain ⟨h2, h3⟩ := mem_openMoves.mp hm
  exact ⟨h2, h1.shape.lt_of_isOpen h3⟩

end Codegen.Coloring
