import Codegen.Proofs.Coloring.Groups
import Codegen.Proofs.Coloring.Stuck

/-!
# Histories of runs

The states that a run goes through (`after`), and what its past steps say about each of them
(`Known`): a node with too many neighbours is taken out only if it was chosen for a spill, a chosen
node is on its way out, and a node that others were merged into is neither chosen nor among stuck
nodes. The last state is that of the whole run (`exists_after_reduced`).
-/

namespace Codegen.Coloring

variable {c c' c₀ : Coloring} {H H' : Nat → Prop} {i j m n x : Nat} {s : Step}

/-! ### The states of a run -/

/-- The coloring after the given number of steps, if so many are taken. -/
def after (c : Coloring) : Nat → Option Coloring
  | 0 => some c
  | i + 1 => (c.after i).bind fun c' => c'.next?.map c'.apply

theorem after_succ (hc : c₀.after i = some c) (hs : c.next? = some s) :
    c₀.after (i + 1) = some (c.apply s) := by
  rw [after, hc, Option.bind_some, hs, Option.map_some]

theorem exists_of_after_succ (h : c₀.after (i + 1) = some c') :
    ∃ c s, c₀.after i = some c ∧ c.next? = some s ∧ c' = c.apply s := by
  rw [after] at h
  obtain ⟨c, hc, h⟩ := Option.bind_eq_some_iff.mp h
  obtain ⟨s, hs, rfl⟩ := Option.map_eq_some_iff.mp h
  exact ⟨c, s, hc, hs, rfl⟩

/-- Every step is taken before the state in which none is left. -/
theorem lt_of_next?_eq_none (hc : c₀.after i = some c) (hnone : c.next? = none)
    (hc' : c₀.after j = some c') (hs : c'.next? = some s) : j < i := by
  have hstop : ∀ d c' s, c₀.after (i + d) = some c' → c'.next? ≠ some s := by
    intro d
    induction d with
    | zero =>
      intro c' s hc' hs
      obtain rfl := Option.some.inj (hc.symm.trans hc')
      rw [hnone] at hs
      cases hs
    | succ d ih =>
      intro c' s hc' _
      obtain ⟨c₁, s₁, h1, h2, -⟩ := exists_of_after_succ hc'
      exact ih c₁ s₁ h1 h2
  by_contra hle
  obtain ⟨d, rfl⟩ := Nat.exists_eq_add_of_le (Nat.not_lt.mp hle)
  exact hstop d c' s hc' hs

/-- Taking the graph apart leads to one of the states. -/
theorem exists_after_reduce (fuel : Nat) (log : Array Event) (hc : c₀.after i = some c) :
    ∃ j ≤ i + fuel, c₀.after j = some (reduce fuel c log).1 := by
  induction fuel generalizing c i log with
  | zero => exact ⟨i, Nat.le_refl _, hc⟩
  | succ fuel ih =>
    unfold reduce
    cases hs : c.next? with
    | none => exact ⟨i, Nat.le_add_right _ _, hc⟩
    | some s =>
      obtain ⟨j, hj, hstate⟩ := ih (log ++ (c.announce s).toArray) (after_succ hc hs)
      exact ⟨j, by omega, hstate⟩

/-! ### Past steps -/

/-- The node was chosen for a spill in one of the first steps. -/
def Chosen (c : Coloring) (i n : Nat) : Prop :=
  ∃ j < i, ∃ c' choice, c.after j = some c' ∧ c'.next? = some (.spill choice) ∧ choice.node = n

/-- The node is taken out after the given number of steps, with the given coloring before it. -/
def TakesOut (c : Coloring) (i : Nat) (c' : Coloring) (n : Nat) : Prop :=
  c.after i = some c' ∧ c'.next? = some (.simplify n)

/-- The node was taken out in one of the first steps, and had too many neighbours then. -/
def TakenHeavy (c : Coloring) (i n : Nat) : Prop :=
  ∃ j < i, ∃ c', c.TakesOut j c' n ∧ (c'.k : Int) ≤ c'.degreeOf n

theorem Chosen.mono (h : c₀.Chosen i n) (hij : i ≤ j) : c₀.Chosen j n := by
  obtain ⟨i', hi', h⟩ := h
  exact ⟨i', by omega, h⟩

theorem TakenHeavy.mono (h : c₀.TakenHeavy i n) (hij : i ≤ j) : c₀.TakenHeavy j n := by
  obtain ⟨i', hi', h⟩ := h
  exact ⟨i', by omega, h⟩

/-- Only the last step can have chosen a node that was not chosen before. -/
theorem Chosen.of_succ (h : c₀.Chosen (i + 1) n) (hc : c₀.after i = some c)
    (hs : c.next? = some s) : c₀.Chosen i n ∨ ∃ choice, s = .spill choice ∧ choice.node = n := by
  obtain ⟨j, hj, c', choice, h1, h2, h3⟩ := h
  by_cases hji : j = i
  · subst hji
    rw [hc] at h1
    cases h1
    rw [hs] at h2
    cases h2
    exact Or.inr ⟨choice, rfl, h3⟩
  · exact Or.inl ⟨j, by omega, c', choice, h1, h2, h3⟩

theorem Tidy.harder (h : c.Tidy { hard := H }) (hH : ∀ n, H n → H' n) : c.Tidy { hard := H' } :=
  { h with ready := fun hn hh => (h.ready hn hh).imp_right (hH _) }

theorem Guarded.mono (h : c.Guarded H) (hH : ∀ n, H n → H' n) : c.Guarded H' :=
  fun A n B hl => (h A n B hl).imp_left (hH n)

/-- A node that is on its way out of the graph stays on it. -/
theorem Change.leaving (hch : Change c s c') (hn : c.node n = .removable ∨ c.node n = .selected) :
    c'.node n = c.node n ∨ c'.node n = .selected := by
  have hslide : Slides (c.node n) (c'.node n) → c'.node n = c.node n := by
    rintro (h | ⟨h, -⟩)
    · exact h
    · rcases hn with hn | hn <;> rw [hn] at h <;> rcases h with h | h <;> cases h
  cases s with
  | simplify x =>
    have hr : Removes x c c' := hch
    by_cases hx : n = x
    · rw [hx]
      exact Or.inr hr.new
    · exact Or.inl (hslide (hr.node n hx))
  | coalesce m =>
    rcases hch with hd | ⟨-, u, v, hm⟩
    · exact Or.inl (hslide (hd.node n))
    · refine Or.inl (hslide (hm.node n ?_))
      rintro rfl
      rcases hm.mergeable.right with hv | hv <;> rw [hv] at hn <;> rcases hn with hn | hn <;> cases hn
  | freeze x => exact Or.inl (hslide (Sorts.node (Sifts.toSorts (Releases.toSifts hch)) n))
  | spill choice => exact Or.inl (hslide (hch.1.node n))

/-! ### What the past says -/

/-- What holds of a coloring after the first steps of a run. -/
structure Known (c₀ : Coloring) (i : Nat) (c : Coloring) : Prop where
  tidy : c.Tidy { hard := c₀.Chosen i }
  separated : c.Separated
  since : Since c₀ c
  /-- What was chosen for a spill is on its way out. -/
  leaving : ∀ n, c₀.Chosen i n → c.node n = .removable ∨ c.node n = .selected
  /-- What was taken out stays out. -/
  gone : ∀ j < i, ∀ c' n, c₀.TakesOut j c' n → c.node n = .selected
  /-- What stands for merged nodes was not chosen, and does not keep others in the graph. -/
  apart : ∀ x < c.size, c.node x = .coalesced →
    ¬ c₀.Chosen i (c.find x) ∧ ∀ S, c.Stuck S → c.find x ∉ S
  guarded : c.Guarded (c₀.TakenHeavy i)

namespace Known

variable (h : Known c₀ i c) (hc : c₀.after i = some c) (hs : c.next? = some s)
include h hc hs

/-- The step is one of the known changes. -/
theorem change : (c.apply s).Tidy { hard := c₀.Chosen (i + 1) } ∧ Change c s (c.apply s) := by
  refine (h.tidy.harder fun n hn => hn.mono (Nat.le_succ i)).step hs ?_
  rintro choice rfl
  exact ⟨i, Nat.lt_succ_self i, c, choice, hc, hs, rfl⟩

theorem leaving_step (hn : c₀.Chosen (i + 1) n) :
    (c.apply s).node n = .removable ∨ (c.apply s).node n = .selected := by
  obtain ⟨-, hch⟩ := h.change hc hs
  rcases hn.of_succ hc hs with hn | ⟨choice, rfl, rfl⟩
  · have hleaving := h.leaving n hn
    rcases hch.leaving hleaving with heq | hsel
    · rw [heq]
      exact hleaving
    · exact Or.inr hsel
  · exact Or.inl hch.1.new

theorem gone_step (hj : j < i + 1) (hn : c₀.TakesOut j c' n) : (c.apply s).node n = .selected := by
  obtain ⟨-, hch⟩ := h.change hc hs
  by_cases hji : j = i
  · subst hji
    obtain ⟨h1, h2⟩ := hn
    rw [hc] at h1
    cases h1
    rw [hs] at h2
    cases h2
    exact Removes.new hch
  · have hsel := h.gone j (by omega) c' n hn
    rcases hch.leaving (Or.inr hsel) with heq | hsel'
    · rw [heq, hsel]
    · exact hsel'

/-- Nodes that are stuck after the step were so before. -/
theorem not_mem_stuck (hx : x < c.size) (hxc : c.node x = .coalesced) {S : Finset Nat}
    (hst : (c.apply s).Stuck S) : c.find x ∉ S := by
  obtain ⟨ht', hch⟩ := h.change hc hs
  exact (h.apart x hx hxc).2 S (hch.stuck h.tidy ht' hst).1

/-- A node that others were merged into is not chosen: it is not among the nodes that are stuck. -/
theorem not_chosen (hx : x < c.size) (hxc : c.node x = .coalesced) :
    ¬ c₀.Chosen (i + 1) (c.find x) := by
  intro hn
  rcases hn.of_succ hc hs with hn | ⟨choice, rfl, hnode⟩
  · exact (h.apart x hx hxc).1 hn
  · have hdue := h.tidy.shape.due hs
    refine (h.apart x hx hxc).2 _ (h.tidy.stuck_spillable hdue) ?_
    rw [List.mem_toFinset, h.tidy.shape.mem_list (by decide), ← hnode]
    exact hdue.2.2.1

theorem apart_step (hx : x < c.size) (hxc : (c.apply s).node x = .coalesced) :
    ¬ c₀.Chosen (i + 1) ((c.apply s).find x) ∧
      ∀ S, (c.apply s).Stuck S → (c.apply s).find x ∉ S := by
  obtain ⟨ht', hch⟩ := h.change hc hs
  -- unless something was merged, the nodes that stand for others are those from before
  have hsame (hold : c.node x = .coalesced) (hfind : (c.apply s).find x = c.find x) :
      ¬ c₀.Chosen (i + 1) ((c.apply s).find x) ∧
        ∀ S, (c.apply s).Stuck S → (c.apply s).find x ∉ S := by
    rw [hfind]
    exact ⟨h.not_chosen hc hs hx hold, fun S hst => h.not_mem_stuck hc hs hx hold hst⟩
  have hsift (hsf : Sifts c (c.apply s)) := hsame (hsf.coalesced_iff.mp hxc) hsf.find_eq
  cases s with
  | simplify n =>
    have hr : Removes n c _ := hch
    refine hsame ?_ (hr.find x)
    have hxn : x ≠ n := by
      rintro rfl
      rw [hr.new] at hxc
      cases hxc
    exact ((hr.node x hxn).eq_iff (by decide) (by decide) (by decide)).mp hxc
  | coalesce m =>
    rcases hch with hd | ⟨hmv, u, v, hm⟩
    · exact hsift hd.toSifts
    by_cases hv : c.find x = v
    · -- the node that was merged into was in the graph
      rw [hm.find hx, if_pos hv]
      refine ⟨fun hu => ?_, fun S hst => hm.not_mem_stuck h.tidy ht' hst⟩
      have hleaving := (hu.of_succ hc hs).resolve_right fun ⟨_, h1, _⟩ => nomatch h1
      rcases h.leaving u hleaving with hn | hn <;>
        rcases hm.mergeable.left with hu | hu | hu <;> rw [hu] at hn <;> cases hn
    · refine hsame ?_ ((hm.find hx).trans (if_neg hv))
      have hxv : x ≠ v := by
        rintro rfl
        exact hv (find_of_ne hm.mergeable.right_ne_coalesced)
      exact ((hm.node x hxv).eq_iff (by decide) (by decide) (by decide)).mp hxc
  | freeze n => exact hsift (Releases.toSifts hch)
  | spill choice => exact hsift hch.1.toSifts

/-- What is known before a step gives what is known after it. -/
theorem step : Known c₀ (i + 1) (c.apply s) := by
  obtain ⟨ht', hch⟩ := h.change hc hs
  have ht := h.tidy.harder fun n hn => hn.mono (Nat.le_succ i)
  refine ⟨ht', h.separated.step hch ht ht', h.since.step hch,
    fun n hn => h.leaving_step hc hs hn, fun j hj c' n hn => h.gone_step hc hs hj hn,
    fun x hx hxc => h.apart_step hc hs (hch.keeps.size ▸ hx) hxc, ?_⟩
  refine (h.guarded.mono fun n hn => hn.mono (Nat.le_succ i)).step hch h.tidy ht' h.separated ?_
  rintro n rfl
  rw [or_iff_not_imp_left, not_lt]
  exact fun hdeg => ⟨i, Nat.lt_succ_self i, c, ⟨hc, hs⟩, hdeg⟩

end Known

/-! ### Whole runs -/

theorem exists_after_reduced (c : Coloring) :
    ∃ i ≤ c.build.classify.stepBound, c.build.classify.after i = some c.reduced := by
  have hstart : c.build.classify.after 0 = some c.build.classify := rfl
  obtain ⟨i, hi, hstate⟩ := exists_after_reduce c.build.classify.stepBound
    (dump .classified c.build.classify) hstart
  exact ⟨i, by omega, hstate⟩

namespace Primed

variable (h : Primed c)
include h

theorem known_start : Known c.build.classify 0 c.build.classify where
  tidy := h.tidy_classify
  separated := h.separated_classify
  since := Since.refl _
  leaving := by
    rintro n ⟨j, hj, -⟩
    omega
  gone := fun j hj => by omega
  apart x _ hx := absurd hx (h.classified.inGraph x).2
  guarded := h.guarded_classify

/-- What the past says holds of every state of the run. -/
theorem known (hc : c.build.classify.after i = some c') : Known c.build.classify i c' := by
  induction i generalizing c' with
  | zero =>
    cases hc
    exact h.known_start
  | succ i ih =>
    obtain ⟨c₁, s, h1, h2, rfl⟩ := exists_of_after_succ hc
    exact (ih h1).step h1 h2

end Primed

end Codegen.Coloring
