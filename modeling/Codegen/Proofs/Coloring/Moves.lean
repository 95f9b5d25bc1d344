import Codegen.Proofs.Coloring.Outcome

/-!
# What becomes of moves

A move waits as long as one of its registers is virtual and still in the graph. Before such a register
leaves the graph its moves are given up, unless it is merged, which hands them on. So when no step is
left, a move is decided, or it waits between machine registers that its own registers were merged
into (`Primed.move_run`): nothing looks at the moves of machine registers again.
-/

namespace Codegen.Coloring

variable {c c' c'' c₀ : Coloring} {i m n s d t u v x : Nat}

/-! ### What steps do to moves -/

/-- No move is forgotten, and none begins to wait. -/
def Settles (c c' : Coloring) : Prop :=
  ∀ m, (c'.move m = .none → c.move m = .none) ∧ (c'.move m = .active → c.move m = .active)

theorem Settles.refl (c : Coloring) : Settles c c := fun _ => ⟨id, id⟩

theorem Settles.trans (h : Settles c c') (h' : Settles c' c'') : Settles c c'' := fun m =>
  ⟨fun hm => (h m).1 ((h' m).1 hm), fun hm => (h m).2 ((h' m).2 hm)⟩

theorem Settles.of_moves (h : c'.moves = c.moves) : Settles c c' := by
  intro m
  unfold Coloring.move
  rw [h]
  exact ⟨id, id⟩

theorem settles_setNode (c : Coloring) (n : Nat) (st : NodeState) : Settles c (c.setNode n st) :=
  .of_moves rfl

theorem settles_foldl {α : Type} {f : Coloring → α → Coloring} (hf : ∀ c a, Settles c (f c a))
    (list : List α) (c : Coloring) : Settles c (list.foldl f c) := by
  induction list generalizing c with
  | nil => exact .refl c
  | cons a list ih => exact (hf c a).trans (ih (f c a))

/-- A move gets the state that it is set to, if it is one at all. -/
theorem move_setMove (c : Coloring) (m : Nat) (st : MoveState) (x : Nat) :
    (c.setMove m st).move x = c.move x ∨ x = m ∧ (c.setMove m st).move x = st := by
  unfold Coloring.move Coloring.setMove Worklist.set Worklist.get Worklist.enter
  simp only [Array.getD_eq_getD_getElem?, Array.getElem?_setIfInBounds]
  by_cases hx : m = x
  · subst hx
    by_cases hm : m < (c.moves.leave m).state.size
    · simp [hm]
    · have hm' : ¬ m < c.moves.state.size := hm
      simp [hm, hm']
  · simp only [if_neg hx]
    exact Or.inl rfl

theorem settles_setMove (c : Coloring) (m : Nat) {st : MoveState} (h1 : st ≠ .none)
    (h2 : st ≠ .active) : Settles c (c.setMove m st) := by
  intro x
  rcases move_setMove c m st x with h | ⟨-, h⟩
  · rw [h]
    exact ⟨id, id⟩
  · rw [h]
    exact ⟨fun hn => absurd hn h1, fun ha => absurd ha h2⟩

theorem settles_enableMoves (c : Coloring) (n : Nat) : Settles c (c.enableMoves n) := by
  refine settles_foldl (fun c m => ?_) _ c
  split
  · exact settles_setMove c m (by decide) (by decide)
  · exact .refl c

theorem settles_decrement (c : Coloring) (n : Nat) : Settles c (c.decrement n) := by
  unfold decrement
  split
  · exact .refl c
  dsimp only
  split
  · exact .of_moves rfl
  -- the moves around the node are woken
  generalize hc₁ : ({ c with degree := c.degree.modify n (· - 1) } : Coloring) = c₁
  have h₁ : Settles c c₁ := .of_moves (by rw [← hc₁])
  have h₂ := (h₁.trans (settles_enableMoves c₁ n)).trans
    (settles_foldl settles_enableMoves ((c₁.enableMoves n).adjacent n) _)
  generalize ((c₁.enableMoves n).adjacent n).foldl enableMoves (c₁.enableMoves n) = c₂ at h₂ ⊢
  split
  · exact h₂
  · split
    · exact h₂.trans (settles_setNode c₂ n _)
    · exact h₂.trans (settles_setNode c₂ n _)

theorem settles_unfreeze (c : Coloring) (n : Nat) : Settles c (c.unfreeze n) := by
  unfold unfreeze
  split
  · exact settles_setNode c n _
  · exact .refl c

theorem settles_combine (c : Coloring) (u v : Nat) : Settles c (c.combine u v) := by
  rw [combine_eq]
  dsimp only
  have h₁ : Settles c (c.absorb u v) := .of_moves rfl
  have h₂ := h₁.trans (settles_foldl (fun c t =>
    (Settles.of_moves (sameRest_connect c t u).moves).trans (settles_decrement (c.connect t u) t))
    ((c.absorb u v).adjacent v) (c.absorb u v))
  split
  · exact h₂.trans (settles_setNode _ u _)
  · exact h₂

theorem settles_freezeMove (n : Nat) (c : Coloring) (m : Nat) : Settles c (freezeMove n c m) := by
  unfold freezeMove
  split
  · exact .refl c
  · exact (settles_setMove c m (by decide) (by decide)).trans (settles_unfreeze _ _)

theorem settles_giveUp (c : Coloring) (n : Nat) : Settles c (c.giveUp n) :=
  (settles_setNode c n _).trans (settles_foldl (settles_freezeMove _) _ _)

/-- A step forgets no move, and only a move that is looked at begins to wait. -/
theorem settles_apply (c : Coloring) (s : Step) :
    Settles c (c.apply s) ∨ ∃ m, s = .coalesce m ∧ c.judge m = .wait ∧
      c.apply s = c.setMove m .active := by
  cases s with
  | simplify n =>
    exact Or.inl ((settles_setNode c n _).trans (settles_foldl settles_decrement _ _))
  | coalesce m =>
    show Settles c (c.coalesce m) ∨ _
    cases hj : c.judge m with
    | same u =>
      left
      unfold coalesce
      rw [hj]
      exact (settles_setMove c m (by decide) (by decide)).trans (settles_unfreeze _ _)
    | constrained u v =>
      left
      unfold coalesce
      rw [hj]
      exact ((settles_setMove c m (by decide) (by decide)).trans (settles_unfreeze _ _)).trans
        (settles_unfreeze _ _)
    | merge u v =>
      left
      unfold coalesce
      rw [hj]
      exact ((settles_setMove c m (by decide) (by decide)).trans (settles_combine _ _ _)).trans
        (settles_unfreeze _ _)
    | wait =>
      right
      refine ⟨m, rfl, hj, ?_⟩
      show c.coalesce m = _
      unfold coalesce
      rw [hj]
  | freeze n => exact Or.inl (settles_giveUp c n)
  | spill choice => exact Or.inl (settles_giveUp c choice.node)

/-! ### What waits -/

/-- No move of the code is forgotten, and none waits between two machine registers. -/
structure Attended (c : Coloring) : Prop where
  known : ∀ {m s d}, c.live.movePair? m = some (s, d) → c.move m ≠ .none
  wait : ∀ {m s d}, c.live.movePair? m = some (s, d) → c.move m = .active →
    c.node s ≠ .precolored ∨ c.node d ≠ .precolored

/-- Only a move with a virtual end is left to wait. -/
theorem isMachine_of_judge_wait (h : c.judge m = .wait) :
    c.isMachine (c.moveEnds m).2 = false := by
  unfold judge at h
  generalize c.moveEnds m = p at h ⊢
  obtain ⟨u, v⟩ := p
  dsimp only at h ⊢
  split at h
  · cases h
  split at h
  · cases h
  · rename_i hcon
    simp only [Bool.or_eq_true, not_or] at hcon
    simpa using hcon.1.1

/-- A machine register stands for itself, so a move with a virtual end has a virtual register. -/
theorem ne_precolored_of_judge_wait (h : c.judge m = .wait)
    (hp : c.live.movePair? m = some (s, d)) : c.node s ≠ .precolored ∨ c.node d ≠ .precolored := by
  by_contra hboth
  simp only [ne_eq, not_or, not_not] at hboth
  have hs : c.find s = s := find_of_ne (by rw [hboth.1]; decide)
  have hd : c.find d = d := find_of_ne (by rw [hboth.2]; decide)
  have hv := isMachine_of_judge_wait h
  rcases moveEnds_eq hp with he | he
  · rw [he, hd, isMachine_iff.mpr hboth.2] at hv
    cases hv
  · rw [he, hs, isMachine_iff.mpr hboth.1] at hv
    cases hv

theorem Attended.step {s : Step} (h : c.Attended) (hch : Change c s (c.apply s)) :
    (c.apply s).Attended := by
  have hlive := hch.keeps.live
  rcases settles_apply c s with hset | ⟨m, rfl, hj, heq⟩
  · refine ⟨fun {x a b} hp hx => ?_, fun {x a b} hp hx => ?_⟩
    · exact h.known (hlive ▸ hp) ((hset x).1 hx)
    · rw [ne_eq, ne_eq, hch.precolored_iff, hch.precolored_iff]
      exact h.wait (hlive ▸ hp) ((hset x).2 hx)
  · rw [heq]
    refine ⟨fun {x a b} hp hx => ?_, fun {x a b} hp hx => ?_⟩
    · rcases move_setMove c m .active x with hm | ⟨-, hm⟩
      · exact h.known hp (hm ▸ hx)
      · rw [hm] at hx
        cases hx
    · rcases move_setMove c m .active x with hm | ⟨rfl, -⟩
      · exact h.wait hp (hm ▸ hx)
      · exact ne_precolored_of_judge_wait (c := c) hj hp

/-- A coloring without a next step has no move that is still to be looked at. -/
theorem Shape.move_finished (h : c.Shape) (hnext : c.next? = none) : c.move m ≠ .coalescable := by
  intro hm
  have hmem := (h.mem_moves (s := .coalescable) (by decide)).mpr hm
  unfold next? at hnext
  split at hnext
  · cases hnext
  · cases hnext
  · cases hnext
  · rename_i hl _
    rw [hl] at hmem
    cases hmem

/-- When no step is left, a move is decided, or waits between machine registers, at least one of them
in place of a register that was merged into it. -/
theorem Attended.finished {H : Nat → Prop} (h : c.Attended) (ht : c.Tidy { hard := H })
    (hnext : c.next? = none) (hp : c.live.movePair? m = some (s, d)) :
    (c.move m = .coalesced ∨ c.move m = .constrained ∨ c.move m = .frozen) ∨
      c.move m = .active ∧ c.node (c.find s) = .precolored ∧ c.node (c.find d) = .precolored ∧
        (c.node s = .coalesced ∨ c.node d = .coalesced) := by
  have hknown := h.known hp
  have hlooked := ht.shape.move_finished (m := m) hnext
  by_cases hact : c.move m = .active
  · right
    have hend : ∀ {n}, n = c.find s ∨ n = c.find d → c.node n = .precolored := by
      intro n hn
      obtain ⟨-, hstate⟩ := ht.end_states rfl (by rw [hact]; rfl) hp hn
      obtain ⟨-, h2, h3⟩ := ht.shape.finished (n := n) hnext
      exact hstate.resolve_right (not_or.mpr ⟨h2, h3⟩)
    have hs := hend (Or.inl rfl)
    have hd := hend (Or.inr rfl)
    refine ⟨hact, hs, hd, (h.wait hp hact).imp (fun hv => ?_) fun hv => ?_⟩
    · by_contra hn
      exact hv (find_of_ne hn ▸ hs)
    · by_contra hn
      exact hv (find_of_ne hn ▸ hd)
  · left
    cases hst : c.move m <;> simp_all

namespace Primed

variable (h : Primed c)
include h

theorem attended_classify : c.build.classify.Attended := by
  have hopen : ∀ {m s d}, c.build.classify.live.movePair? m = some (s, d) →
      c.build.classify.move m = .coalescable := by
    intro m s d hp
    rw [h.classified.live] at hp
    rw [h.classified.move_eq, h.built.move]
    exact if_pos ⟨Liveness.lt_of_movePair? hp, by rw [hp]; rfl⟩
  refine ⟨fun hp hm => ?_, fun hp hm => ?_⟩
  · rw [hopen hp] at hm
    cases hm
  · rw [hopen hp] at hm
    cases hm

theorem attended (hc : c.build.classify.after i = some c') : c'.Attended := by
  induction i generalizing c' with
  | zero =>
    cases hc
    exact h.attended_classify
  | succ i ih =>
    obtain ⟨c₁, s, h1, h2, rfl⟩ := exists_of_after_succ hc
    exact (ih h1).step ((h.known h1).change h1 h2).2

theorem coalesced_run (hn : c.reduced.node n = .coalesced) : c.run.1.node n = .coalesced := by
  rcases h.node_run n with ⟨hsel, -⟩ | ⟨-, hrun⟩
  · rw [hn] at hsel
    cases hsel
  · rw [hrun, hn]

/-- What becomes of a move. -/
theorem move_run (hp : c.live.movePair? m = some (s, d)) :
    (c.run.1.move m = .coalesced ∨ c.run.1.move m = .constrained ∨ c.run.1.move m = .frozen) ∨
      c.run.1.move m = .active ∧ c.node (c.run.1.find s) = .precolored ∧
        c.node (c.run.1.find d) = .precolored ∧
        (c.run.1.node s = .coalesced ∨ c.run.1.node d = .coalesced) := by
  obtain ⟨ht, -, -⟩ := h.reduced
  obtain ⟨i, -, hi⟩ := exists_after_reduced c
  obtain ⟨-, -, -, hmoves, -⟩ := h.run_spec
  have hmove : c.run.1.move m = c.reduced.move m := by
    unfold Coloring.move
    rw [hmoves]
  rw [hmove, h.find_run, h.find_run]
  refine ((h.attended hi).finished ht h.next?_reduced (h.live_reduced.symm ▸ hp)).imp_right ?_
  rintro ⟨hact, hs, hd, hmerged⟩
  rw [h.precolored_reduced] at hs hd
  exact ⟨hact, hs, hd, hmerged.imp h.coalesced_run h.coalesced_run⟩

theorem wf_moves_run : c.run.1.moves.Wf c.live.refs.size := by
  obtain ⟨ht, -, -⟩ := h.reduced
  obtain ⟨-, -, -, hmoves, -⟩ := h.run_spec
  rw [hmoves, ← h.live_reduced]
  exact ht.shape.moves

end Primed

/-- A run takes its last step within the bound on steps, and mergers can be followed to their end all
along. Then every register that is no machine register is on just one of the lists of colored,
spilled and merged nodes, and no move is to be looked at: each is on one list, that of merged,
constrained or given up moves, or it is still waiting. A move that waits has machine registers at
both ends, at least one of them in place of a register that was merged into it. -/
theorem run_decides (p : Setup) :
    (∃ i ≤ p.coloring.build.classify.stepBound, ∃ c, p.coloring.build.classify.after i = some c ∧
      c.next? = none ∧ p.coloring.run.1 = c.assign) ∧
    (∀ i c, p.coloring.build.classify.after i = some c → ∀ n < p.live.regs.size,
      c.node (c.find n) ≠ .coalesced) ∧
    (∀ n < p.live.regs.size, n ∉ p.machine.map (·.1) →
      ∃ st ∈ [NodeState.colored, .spilled, .coalesced],
        ∀ st', n ∈ p.coloring.run.1.nodes.list st' ↔ st' = st) ∧
    ∀ m s d, p.live.movePair? m = some (s, d) →
      ∃ st, (∀ st', m ∈ p.coloring.run.1.moves.list st' ↔ st' = st) ∧
        (st ∈ [MoveState.coalesced, .constrained, .frozen] ∨
          st = .active ∧
            p.coloring.run.1.find s ∈ p.machine.map (·.1) ∧
            p.coloring.run.1.find d ∈ p.machine.map (·.1) ∧
            (p.coloring.run.1.node s = .coalesced ∨ p.coloring.run.1.node d = .coalesced)) := by
  have h := p.primed
  refine ⟨?_, fun i c hc n hn => ?_, fun n hn hv => ?_, fun m s d hp => ?_⟩
  · obtain ⟨i, hi, hc⟩ := exists_after_reduced p.coloring
    exact ⟨i, hi, _, hc, h.next?_reduced, run_eq _⟩
  · have hknown := h.known hc
    have hlive : c.live = p.live := hknown.since.live.trans
      (h.classified.live.trans (h.live_build.trans p.live_eq))
    exact hknown.tidy.finds.node_find hknown.tidy.shape (by unfold size; rwa [hlive])
  · have hstate := h.state_run (p.size_eq ▸ hn) fun hm => hv ((p.precolored_iff n).mp hm)
    rcases hstate with hn | hn | hn
    · exact ⟨_, by simp, fun st' => h.wf_run.mem_list_iff_eq hn (by decide)⟩
    · exact ⟨_, by simp, fun st' => h.wf_run.mem_list_iff_eq hn (by decide)⟩
    · exact ⟨_, by simp, fun st' => h.wf_run.mem_list_iff_eq hn (by decide)⟩
  · have hmove := h.move_run (p.live_eq.symm ▸ hp)
    rw [p.precolored_iff, p.precolored_iff] at hmove
    have hne : p.coloring.run.1.move m ≠ .none := by
      rcases hmove with (hm | hm | hm) | ⟨hm, -⟩ <;> rw [hm] <;> decide
    refine ⟨p.coloring.run.1.move m, fun st' => h.wf_moves_run.mem_list_iff_eq rfl hne,
      hmove.imp_left fun hm => ?_⟩
    simpa using hm

/-- Two values are passed on in the machine registers `a` and `b`, the second a copy of the first. -/
def passing : Code :=
  [.copy "mov &o0, &i0" (some ⟨0, 3, ""⟩) (some ⟨0, 2, ""⟩),
    .copy "mov &o0, &i0" (some ⟨0, 1, "b"⟩) (some ⟨0, 3, ""⟩),
    .copy "mov &o0, &i0" (some ⟨0, 0, "a"⟩) (some ⟨0, 2, ""⟩),
    { text := "use", reads := [some ⟨0, 0, "a"⟩, some ⟨0, 3, ""⟩] }]

theorem flow_passing : Flow.ofCode passing = .ok ⟨#[[1], [2], [3], []], #[[], [0], [1], [2]]⟩ := rfl

/-- The two values are the nodes 0 and 1, the machine registers `b` and `a` the nodes 2 and 3. -/
def passingSetup : Setup where
  live := .ofFlow ⟨#[[1], [2], [3], []], #[[], [0], [1], [2]]⟩ passing none
  k := 2
  machine := [(3, 0), (2, 1)]
  temporaries := .empty
  bounded := (Liveness.ofFlow_describes flow_passing none).bounded
  nodup := by decide
  lt := by decide +kernel

/-- The copy of the first value waits to the end: both values are merged into machine registers. -/
theorem passing_leaves_move_waiting :
    passingSetup.live.movePair? 0 = some (0, 1) ∧
      passingSetup.coloring.run.1.moves.list .active = [0] ∧
      passingSetup.coloring.run.1.find 0 = 3 ∧ passingSetup.coloring.run.1.find 1 = 2 := by
  decide +kernel

theorem passing_decided :
    passingSetup.live.movePair? 1 = some (1, 2) ∧
      ∃ st, (∀ st', 1 ∈ passingSetup.coloring.run.1.moves.list st' ↔ st' = st) ∧
        (st ∈ [MoveState.coalesced, .constrained, .frozen] ∨
          st = .active ∧
            passingSetup.coloring.run.1.find 1 ∈ passingSetup.machine.map (·.1) ∧
            passingSetup.coloring.run.1.find 2 ∈ passingSetup.machine.map (·.1) ∧
            (passingSetup.coloring.run.1.node 1 = .coalesced ∨
              passingSetup.coloring.run.1.node 2 = .coalesced)) :=
  have hpair : passingSetup.live.movePair? 1 = some (1, 2) := by decide +kernel
  ⟨hpair, (run_decides passingSetup).2.2.2 1 1 2 hpair⟩

end Codegen.Coloring
