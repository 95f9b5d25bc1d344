import Codegen.Proofs.Coloring.Merge

/-!
# What a step can do

Each step takes a node out, merges a node into another, decides about a move, or prepares a node to
be taken out (`Change`). Whatever holds at first and survives these changes holds when no step is
left (`reduce_induction`), and a tidy coloring stays tidy (`Tidy.step`).
-/

namespace Codegen.Coloring

open List

variable {c c' : Coloring} {H : Nat → Prop} {m n s d u v x : Nat}

/-! ### The kinds of change -/

/-- Every step keeps the code, the colors and the first degrees. -/
structure Keeps (c c' : Coloring) : Prop where
  live : c'.live = c.live
  k : c'.k = c.k
  firstDegree : c'.firstDegree = c.firstDegree
  color : c'.color = c.color
  temporaries : c'.temporaries = c.temporaries

theorem Keeps.size (h : Keeps c c') : c'.size = c.size := by
  unfold Coloring.size
  rw [h.live]

theorem Sorts.keeps (h : Sorts c c') : Keeps c c' :=
  ⟨h.live, h.k, h.firstDegree, h.color, h.temporaries⟩

/-- A node is taken out. -/
structure Removes (n : Nat) (c c' : Coloring) : Prop extends Keeps c c' where
  old : c.node n = .removable
  new : c'.node n = .selected
  node : ∀ x, x ≠ n → Slides (c.node x) (c'.node x)
  selected : c'.nodes.list .selected = c.nodes.list .selected ++ [n]
  coalesced : c'.nodes.list .coalesced = c.nodes.list .coalesced
  find : ∀ x, c'.find x = c.find x
  interferes : ∀ x y, c'.interferes x y = c.interferes x y
  neighboursOf : ∀ x, c'.neighboursOf x = c.neighboursOf x

/-- A node is prepared to be taken out. -/
structure Releases (n : Nat) (c c' : Coloring) : Prop extends Sifts c c' where
  old : c.node n = .freezeable ∨ c.node n = .spillable
  new : c'.node n = .removable

/-- A move is no longer to be looked at. -/
structure Decides (m : Nat) (c c' : Coloring) : Prop extends Sifts c c' where
  old : c.move m = .coalescable
  new : c'.move m ≠ .coalescable
  move : ∀ x, x ≠ m → c'.move x = c.move x

/-- A node is merged into another. -/
structure Merges (u v : Nat) (c c' : Coloring) : Prop extends Keeps c c' where
  mergeable : c.Mergeable u v
  safe : c.isMachine u = true ∧ c.safeForMachine u v = true ∨
    c.isMachine u = false ∧ c.safeTogether u v = true
  /-- Only a machine register with a color for virtual registers is merged with one. -/
  color_lt : c.isMachine u = true → ∀ color, c.colorOf u = some color → color < c.k
  new : c'.node v = .coalesced
  node : ∀ x, x ≠ v → Slides (c.node x) (c'.node x)
  selected : c'.nodes.list .selected = c.nodes.list .selected
  coalesced : c'.nodes.list .coalesced = c.nodes.list .coalesced ++ [v]
  find : ∀ {x}, x < c.size → c'.find x = if c.find x = v then u else c.find x
  interferes : ∀ {x y}, c'.interferes x y = true ↔
    c.interferes x y = true ∨ x ∈ c.adjacent v ∧ y = u ∨ x = u ∧ y ∈ c.adjacent v

theorem Removes.precolored_iff (h : Removes n c c') (x : Nat) :
    c'.node x = .precolored ↔ c.node x = .precolored := by
  by_cases hx : x = n
  · rw [hx, h.new, h.old]
    decide
  · exact (h.node x hx).eq_iff (by decide) (by decide) (by decide)

theorem Removes.inGraph_iff (h : Removes n c c') (x : Nat) :
    c'.InGraph x ↔ c.InGraph x ∧ x ≠ n := by
  unfold InGraph
  by_cases hx : x = n
  · rw [hx, h.new]
    simp
  · rw [ne_eq, ne_eq, (h.node x hx).eq_iff (by decide) (by decide) (by decide),
      (h.node x hx).eq_iff (by decide) (by decide) (by decide)]
    simp [hx]

section Merges

variable (h : Merges u v c c')
include h

theorem Merges.mono (hxy : c.interferes x n = true) : c'.interferes x n = true :=
  h.interferes.mpr (Or.inl hxy)

theorem Merges.precolored_iff (x : Nat) : c'.node x = .precolored ↔ c.node x = .precolored := by
  by_cases hx : x = v
  · rw [hx, h.new]
    simp [h.mergeable.right_ne_precolored]
  · exact (h.node x hx).eq_iff (by decide) (by decide) (by decide)

theorem Merges.selected_iff (hx : x ≠ v) : c'.node x = .selected ↔ c.node x = .selected :=
  (h.node x hx).eq_iff (by decide) (by decide) (by decide)

theorem Merges.inGraph_iff (x : Nat) : c'.InGraph x ↔ c.InGraph x ∧ x ≠ v := by
  unfold InGraph
  by_cases hx : x = v
  · rw [hx, h.new]
    simp
  · rw [ne_eq, ne_eq, h.selected_iff hx, (h.node x hx).eq_iff (by decide) (by decide) (by decide)]
    simp [hx]

end Merges

/-- What each kind of step can do. -/
def Change (c : Coloring) : Step → Coloring → Prop
  | .simplify n, c' => Removes n c c'
  | .coalesce m, c' => Decides m c c' ∨ c.move m = .coalescable ∧ ∃ u v, Merges u v c c'
  | .freeze n, c' => Releases n c c'
  | .spill choice, c' => Releases choice.node c c' ∧ c.node choice.node = .spillable

theorem Change.keeps {s : Step} (h : Change c s c') : Keeps c c' := by
  cases s with
  | simplify n => exact h.toKeeps
  | coalesce m =>
    rcases h with h | ⟨-, u, v, h⟩
    · exact h.toSorts.keeps
    · exact h.toKeeps
  | freeze n => exact Sorts.keeps (Sifts.toSorts (Releases.toSifts h))
  | spill choice => exact h.1.toSorts.keeps

theorem Change.precolored_iff {s : Step} (h : Change c s c') (x : Nat) :
    c'.node x = .precolored ↔ c.node x = .precolored := by
  cases s with
  | simplify n => exact Removes.precolored_iff h x
  | coalesce m =>
    rcases h with h | ⟨-, u, v, h⟩
    · exact h.toSorts.precolored_iff
    · exact h.precolored_iff x
  | freeze n => exact Sorts.precolored_iff (Sifts.toSorts (Releases.toSifts h))
  | spill choice => exact h.1.toSorts.precolored_iff

/-- Steps add edges at most. -/
theorem Change.mono {s : Step} (h : Change c s c') (hxy : c.interferes x n = true) :
    c'.interferes x n = true := by
  cases s with
  | simplify y => exact (Removes.interferes h x n).trans hxy
  | coalesce m =>
    rcases h with h | ⟨-, u, v, h⟩
    · exact (h.interferes_eq x n).trans hxy
    · exact h.mono hxy
  | freeze y => exact (Sifts.interferes_eq (Releases.toSifts h) x n).trans hxy
  | spill choice => exact (h.1.interferes_eq x n).trans hxy

/-! ### Taking out and letting go -/

theorem Tidy.step_simplify (h : c.Tidy { hard := H }) (hn : c.node n = .removable) :
    (c.simplify n).Tidy { hard := H } ∧ Removes n c (c.simplify n) := by
  obtain ⟨h1, h2⟩ := h.simplify rfl rfl hn
  have hlt : n < c.size := h.shape.lt_of_node (by rw [hn]; decide)
  have hnode := fun x => h.shape.node_setNode (a := x) (s := .selected) hlt
  have hget : c.nodes.get n = .removable := hn
  refine ⟨h1, { h2.toSorts.keeps with
    old := hn, new := ?_, node := ?_, selected := ?_, coalesced := ?_, find := ?_,
    interferes := h2.interferes_eq, neighboursOf := h2.neighboursOf_eq }⟩
  · rw [h2.selected_iff, hnode, if_pos rfl]
  · intro x hx
    have := h2.node x
    rwa [hnode, if_neg hx] at this
  · rw [h2.selected]
    exact h.shape.nodes.list_set_self (by rw [hget]; decide)
  · rw [h2.coalesced]
    exact h.shape.nodes.list_set_of_ne (by decide) (by rw [hget]; decide)
  · intro x
    rw [h2.find_eq]
    refine find_congr rfl rfl fun y => ?_
    rw [hnode]
    by_cases hy : y = n
    · simp [hy, hn]
    · rw [if_neg hy]

theorem Tidy.step_giveUp (h : c.Tidy { hard := H })
    (hn : c.node n = .freezeable ∨ c.node n = .spillable) (hready : c.degreeOf n < c.k ∨ H n) :
    (c.giveUp n).Tidy { hard := H } ∧ Releases n c (c.giveUp n) := by
  obtain ⟨h1, h2, -⟩ := h.giveUp rfl hn hready
  have hlt : n < c.size := h.shape.lt_of_node (by rcases hn with hn | hn <;> rw [hn] <;> decide)
  have hself : (c.setNode n .removable).node n = .removable := by
    rw [h.shape.node_setNode hlt, if_pos rfl]
  refine ⟨h1, { (h.shape.sifts_setNode hn (Or.inl rfl)).trans h2 with old := hn, new := ?_ }⟩
  rcases h2.node n with h3 | ⟨h3, -⟩
  · rw [h3, hself]
  · rw [hself] at h3
    rcases h3 with h3 | h3 <;> cases h3

/-! ### Looking at a move -/

/-- What is known when a move is judged. -/
def Judged (c : Coloring) (u v : Nat) : Verdict → Prop
  | .same w => w = u ∧ u = v
  | .constrained w x => w = u ∧ x = v
  | .merge w x => w = u ∧ x = v ∧ u ≠ v ∧ c.isMachine v = false ∧ c.interferes u v = false ∧
    (c.isMachine u = true ∧ c.safeForMachine u v = true ∨
      c.isMachine u = false ∧ c.safeTogether u v = true) ∧
    (c.isMachine u = true → ∀ color, c.colorOf u = some color → color < c.k)
  | .wait => True

theorem moveEnds_eq (hp : c.live.movePair? m = some (s, d)) :
    c.moveEnds m = (c.find s, c.find d) ∨ c.moveEnds m = (c.find d, c.find s) := by
  unfold moveEnds
  rw [hp]
  dsimp only
  split
  · exact Or.inr rfl
  · exact Or.inl rfl

theorem judged (c : Coloring) (m : Nat) :
    c.Judged (c.moveEnds m).1 (c.moveEnds m).2 (c.judge m) := by
  unfold judge
  generalize c.moveEnds m = p
  obtain ⟨u, v⟩ := p
  dsimp only
  by_cases huv : u = v
  · rw [if_pos huv]
    exact ⟨rfl, huv⟩
  rw [if_neg huv]
  split
  · exact ⟨rfl, rfl⟩
  rename_i hcon
  simp only [Bool.or_eq_true, not_or] at hcon
  split
  · rename_i hsafe
    refine ⟨rfl, rfl, huv, by simpa using hcon.1.1, by simpa using hcon.1.2, ?_,
      fun hmach color hcolor => ?_⟩
    · simpa [and_comm] using hsafe
    · simpa [hmach, hcolor] using hcon.2
  · trivial

theorem Tidy.step_coalesce (h : c.Tidy { hard := H }) (hm : c.move m = .coalescable) :
    (c.coalesce m).Tidy { hard := H } ∧ Change c (.coalesce m) (c.coalesce m) := by
  have hopen : (c.move m).isOpen = true := by rw [hm]; rfl
  have hlt := h.shape.lt_of_isOpen hopen
  obtain ⟨s, d, hp⟩ := h.pair hopen
  have hends := moveEnds_eq hp
  have hstate : ∀ {n}, n = (c.moveEnds m).1 ∨ n = (c.moveEnds m).2 → n < c.size ∧
      (c.node n = .precolored ∨ c.node n = .freezeable ∨ c.node n = .spillable) := by
    intro n hn
    refine h.end_states rfl hopen hp ?_
    rcases hends with he | he <;> rw [he] at hn
    · exact hn
    · exact hn.symm
  have hclose : ∀ st : MoveState, st.isOpen = false → st ≠ .none →
      (c.setMove m st).Tidy { hard := H, idle := [(c.moveEnds m).1, (c.moveEnds m).2] } := by
    intro st h1 h2
    have h3 := h.close hlt hp st h1 h2
    rcases hends with he | he
    · rw [he]
      exact h3
    · rw [he]
      exact { h3 with related := fun hx hi => h3.related hx (by
        simp only [mem_cons, not_mem_nil, or_false, not_or] at hi ⊢
        exact ⟨hi.2, hi.1⟩) }
  -- moves other than `m` keep their states unless a merger happens
  have hmove : ∀ {st : MoveState} {c' : Coloring}, st ≠ .coalescable →
      Sifts (c.setMove m st) c' → c'.moves = (c.setMove m st).moves → Decides m c c' := by
    intro st c' hst hs hmv
    have hall : ∀ x, c'.move x = if x = m then st else c.move x := by
      intro x
      rw [← h.shape.move_setMove hlt]
      unfold Coloring.move
      rw [hmv]
    refine { (sifts_setMove c m st).trans hs with old := hm, new := ?_, move := fun x hx => ?_ }
    · rw [hall, if_pos rfl]
      exact hst
    · rw [hall, if_neg hx]
  have hj := judged c m
  unfold Coloring.coalesce
  generalize (c.moveEnds m).1 = u at *
  generalize (c.moveEnds m).2 = v at *
  cases hv : c.judge m with
  | same w =>
    rw [hv] at hj
    obtain ⟨rfl, rfl⟩ := hj
    dsimp only
    have h1 := hclose .coalesced rfl (by decide)
    obtain ⟨h2, h3⟩ := h1.shape.sifts_unfreeze w
    refine ⟨Tidy.unfreeze (w := { hard := H }) ?_ (by simp), Or.inl (hmove (by decide) h2 h3)⟩
    exact { h1 with related := fun hx hi => h1.related hx (by simpa using hi) }
  | constrained w x =>
    rw [hv] at hj
    obtain ⟨rfl, rfl⟩ := hj
    dsimp only
    have h1 := hclose .constrained rfl (by decide)
    obtain ⟨h2, h3⟩ := h1.shape.sifts_unfreeze w
    have h4 := Tidy.unfreeze (w := { hard := H, idle := [x] }) h1 (by simp)
    obtain ⟨h5, h6⟩ := h4.shape.sifts_unfreeze x
    exact ⟨Tidy.unfreeze (w := { hard := H }) h4 (by simp),
      Or.inl (hmove (by decide) (h2.trans h5) (h6.trans h3))⟩
  | merge w x =>
    rw [hv] at hj
    obtain ⟨rfl, rfl, hne, hmach, hint, hsafe, hcolor⟩ := hj
    dsimp only
    have h1 := hclose .coalesced rfl (by decide)
    obtain ⟨hw, hwst⟩ := hstate (Or.inl rfl)
    obtain ⟨hx, hxst⟩ := hstate (Or.inr rfl)
    have hxst' : c.node x = .freezeable ∨ c.node x = .spillable := by
      refine hxst.resolve_left fun hpre => ?_
      rw [isMachine_iff.mpr hpre] at hmach
      cases hmach
    have hmerge : c.Mergeable w x := ⟨hne, hw, hx, hwst, hxst', hint⟩
    have hmerge' : (c.setMove m .coalesced).Mergeable w x := ⟨hne, hw, hx, hwst, hxst', hint⟩
    obtain ⟨h2, h3, h4⟩ := h1.combine hmerge'
    obtain ⟨h5, -⟩ := h2.shape.sifts_unfreeze w
    have h6 := h3.trans h5.toSorts
    have hnode := fun y => h1.shape.node_absorb (x := y) (u := w) hx
    refine ⟨Tidy.unfreeze (w := { hard := H }) h2 (by simp), Or.inr ⟨hm, w, x,
      { Keeps.mk h6.live h6.k h6.firstDegree h6.color h6.temporaries with
        mergeable := hmerge, safe := hsafe, color_lt := hcolor, new := ?_, node := ?_,
        selected := ?_, coalesced := ?_, find := ?_, interferes := ?_ }⟩⟩
    · rw [h6.coalesced_iff, hnode, if_pos rfl]
    · intro y hy
      have := h6.node y
      rwa [hnode, if_neg hy] at this
    · rw [h6.selected]
      exact h1.shape.selected_absorb hmerge'.right_ne_selected
    · rw [h6.coalesced]
      exact h1.shape.coalesced_absorb hmerge'.right_ne_coalesced
    · intro y hy
      rw [h6.find_eq, hmerge'.find_absorb h1.finds h1.shape hy, setMove_find]
    · intro y z
      rw [h5.interferes_eq, h4]
      rfl
  | wait =>
    dsimp only
    exact ⟨h.reopen hopen rfl, Or.inl (hmove (by decide) (Sifts.refl _) rfl)⟩

/-! ### The choice of the next step -/

/-- The preferred candidate is one of the candidates, and costs without bound only if all do. -/
theorem least?_spec {list : List Candidate} {b : Candidate} (h : Candidate.least? list = some b) :
    b ∈ list ∧ (b.cost = .infinite → ∀ x ∈ list, x.cost = .infinite) := by
  cases list with
  | nil => cases h
  | cons a rest =>
    simp only [Candidate.least?, Option.some.injEq] at h
    subst h
    have key : ∀ (rest : List Candidate) (a : Candidate),
        let best := rest.foldl (fun best x => if x.before best then x else best) a
        best ∈ a :: rest ∧ (best.cost = .infinite → ∀ x ∈ a :: rest, x.cost = .infinite) := by
      intro rest
      induction rest with
      | nil => simp
      | cons y rest ih =>
        intro a
        obtain ⟨h1, h2⟩ := ih (if y.before a then y else a)
        rw [foldl_cons]
        dsimp only at h1 h2 ⊢
        have hone : ∀ z, z = (if y.before a then y else a) → z = a ∨ z = y := by
          rintro z rfl
          split
          · exact Or.inr rfl
          · exact Or.inl rfl
        refine ⟨?_, fun hinf x hx => ?_⟩
        · rcases mem_cons.mp h1 with h1 | h1
          · rcases hone _ h1 with h3 | h3 <;> rw [h3] <;> simp
          · exact mem_cons_of_mem _ (mem_cons_of_mem _ h1)
        · have hbest := h2 hinf _ mem_cons_self
          -- the one that was not kept costs no less
          have hboth : a.cost = .infinite ∧ y.cost = .infinite := by
            cases ha : a.cost with
            | infinite =>
              cases hy : y.cost with
              | infinite => exact ⟨rfl, rfl⟩
              | finite p q => simp [Candidate.before, ha, hy, Cost.less] at hbest
            | finite p q =>
              cases hy : y.cost with
              | infinite => simp [Candidate.before, ha, hy, Cost.less] at hbest
              | finite p' q' =>
                split at hbest
                · rw [hy] at hbest
                  cases hbest
                · rw [ha] at hbest
                  cases hbest
          rcases mem_cons.mp hx with rfl | hx
          · exact hboth.1
          · rcases mem_cons.mp hx with rfl | hx
            · exact hboth.2
            · exact h2 hinf x (mem_cons_of_mem _ hx)
    exact key rest a

/-- The situations in which each kind of step is next. -/
def Due (c : Coloring) : Step → Prop
  | .simplify n => c.node n = .removable
  | .coalesce m => c.move m = .coalescable
  | .freeze n => c.node n = .freezeable
  | .spill choice => (∀ n, c.node n ≠ .removable ∧ c.node n ≠ .freezeable) ∧
      (∀ m, (c.move m).isOpen = true → c.move m = .active) ∧ c.node choice.node = .spillable ∧
      choice.cost = c.cost choice.node ∧
      (choice.cost = .infinite → ∀ n, c.node n = .spillable → c.cost n = .infinite)

theorem Shape.due (h : c.Shape) {s : Step} (hs : c.next? = some s) : c.Due s := by
  have hrem := fun n => h.mem_list (n := n) (s := .removable) (by decide)
  have hcoal := fun m => h.mem_moves (m := m) (s := .coalescable) (by decide)
  have hfree := fun n => h.mem_list (n := n) (s := .freezeable) (by decide)
  have hspill := fun n => h.mem_list (n := n) (s := .spillable) (by decide)
  unfold next? at hs
  split at hs
  · rename_i n rest hl
    cases hs
    exact (hrem n).mp (by rw [hl]; exact mem_cons_self)
  · rename_i m rest _ hl
    cases hs
    exact (hcoal m).mp (by rw [hl]; exact mem_cons_self)
  · rename_i n rest _ _ hl
    cases hs
    exact (hfree n).mp (by rw [hl]; exact mem_cons_self)
  · rename_i h1 h2 h3
    obtain ⟨choice, hc, rfl⟩ := Option.map_eq_some_iff.mp hs
    obtain ⟨hmem, hmin⟩ := least?_spec hc
    obtain ⟨n, hn, rfl⟩ := mem_map.mp hmem
    refine ⟨fun x => ⟨fun hx => ?_, fun hx => ?_⟩, fun m hm => ?_, (hspill n).mp hn, rfl,
      fun hinf x hx => ?_⟩
    · have := (hrem x).mpr hx
      rw [h1] at this
      cases this
    · have := (hfree x).mpr hx
      rw [h3] at this
      cases this
    · cases hst : c.move m with
      | coalescable =>
        have := (hcoal m).mpr hst
        rw [h2] at this
        cases this
      | active => rfl
      | _ =>
        rw [hst] at hm
        cases hm
    · exact hmin hinf ⟨x, c.cost x⟩ (mem_map.mpr ⟨x, (hspill x).mpr hx, rfl⟩)

/-- A tidy coloring stays tidy if only nodes that may have too many neighbours are chosen to be
spilled, and the step is one of the changes above. -/
theorem Tidy.step (h : c.Tidy { hard := H }) {s : Step} (hs : c.next? = some s)
    (hspill : ∀ choice, s = .spill choice → H choice.node) :
    (c.apply s).Tidy { hard := H } ∧ Change c s (c.apply s) := by
  have hdue := h.shape.due hs
  cases s with
  | simplify n => exact h.step_simplify hdue
  | coalesce m => exact h.step_coalesce hdue
  | freeze n => exact h.step_giveUp (Or.inl hdue) (Or.inl (h.light hdue (by simp)))
  | spill choice =>
    obtain ⟨h1, h2⟩ := h.step_giveUp (Or.inr hdue.2.2.1) (Or.inr (hspill choice rfl))
    exact ⟨h1, h2, hdue.2.2.1⟩

/-! ### Runs -/

/-- What every step keeps is there when no step is left. -/
theorem reduce_induction {P : Coloring → Prop}
    (step : ∀ {c s}, P c → c.next? = some s → P (c.apply s)) (fuel : Nat) (log : Array Event)
    (h : P c) : P (reduce fuel c log).1 := by
  induction fuel generalizing c log with
  | zero => exact h
  | succ fuel ih =>
    unfold reduce
    cases hs : c.next? with
    | none => exact h
    | some s => exact ih _ (step h hs)

end Codegen.Coloring
