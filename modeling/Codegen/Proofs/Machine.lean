import Mathlib.Logic.Basic

/-!
# Machines

A machine goes from state to state, now and then with an event, until it stops with a result. Where
every step of one machine is matched by one or more steps of another (`Simulates`), both go through
the same events, stop with the same result, or run forever (`Simulates.sameRuns`).
-/

namespace Codegen

open List

/-- What a machine does next. -/
inductive Move (C E O : Type*)
  | go (event : Option E) (next : C)
  | stop (result : O)

namespace Move

variable {C D E O : Type*} {M : C → Move C E O} {N : D → Move D E O} {c c' c'' : C} {d d' : D}
  {m n : Nat} {es fs : List E} {o : O}

/-- A number of steps with the events on the way. -/
inductive Reaches (M : C → Move C E O) : Nat → C → List E → C → Prop
  | refl (c : C) : Reaches M 0 c [] c
  | step {n : Nat} {c c' c'' : C} {e : Option E} {es : List E} (h : M c = .go e c')
      (hs : Reaches M n c' es c'') : Reaches M (n + 1) c (e.toList ++ es) c''

/-- The machine stops with a result, after the given events. -/
def Halts (M : C → Move C E O) (c : C) (es : List E) (o : O) : Prop :=
  ∃ n c', Reaches M n c es c' ∧ M c' = .stop o

/-- The machine never stops. -/
def RunsForever (M : C → Move C E O) (c : C) : Prop := ∀ n, ∃ es c', Reaches M n c es c'

/-- Two machines go through the same events, stop with the same result and run forever alike. -/
structure SameRuns (M : C → Move C E O) (c : C) (N : D → Move D E O) (d : D) : Prop where
  events : ∀ es, (∃ n c', Reaches M n c es c') ↔ ∃ n d', Reaches N n d es d'
  halts : ∀ es o, Halts M c es o ↔ Halts N d es o
  forever : RunsForever M c ↔ RunsForever N d

/-! ### Runs of one machine -/

theorem Reaches.one {e : Option E} (h : M c = .go e c') : Reaches M 1 c e.toList c' :=
  append_nil e.toList ▸ .step h (.refl c')

theorem Reaches.trans (h : Reaches M m c es c') (h' : Reaches M n c' fs c'') :
    Reaches M (m + n) c (es ++ fs) c'' := by
  induction h with
  | refl => rwa [Nat.zero_add]
  | step hstep _ ih =>
    rw [append_assoc, Nat.add_right_comm]
    exact .step hstep (ih h')

/-- The shorter of two runs from one state is the start of the longer one. -/
theorem Reaches.split (h : Reaches M m c es c') (h' : Reaches M (m + n) c fs c'') :
    ∃ gs, fs = es ++ gs ∧ Reaches M n c' gs c'' := by
  induction h generalizing fs with
  | refl =>
    rw [Nat.zero_add] at h'
    exact ⟨fs, rfl, h'⟩
  | @step m c c₁ c' e es hstep _ ih =>
    rw [Nat.add_right_comm] at h'
    cases h' with
    | step hstep' hs' =>
      rw [hstep] at hstep'
      cases hstep'
      obtain ⟨gs, rfl, hgs⟩ := ih hs'
      exact ⟨gs, by rw [append_assoc], hgs⟩

/-- No step leads from where the machine stops. -/
theorem Reaches.of_stop (h : Reaches M n c es c') (hc : M c = .stop o) : n = 0 ∧ es = [] := by
  cases h with
  | refl => exact ⟨rfl, rfl⟩
  | step hstep _ =>
    rw [hc] at hstep
    cases hstep

theorem runsForever_iff : RunsForever M c ↔ ∀ es o, ¬ Halts M c es o := by
  constructor
  · rintro h es o ⟨n, c', hreach, hstop⟩
    obtain ⟨fs, c'', hreach'⟩ := h (n + 1)
    obtain ⟨gs, -, hgs⟩ := hreach.split hreach'
    exact absurd (hgs.of_stop hstop).1 Nat.one_ne_zero
  · intro h n
    induction n with
    | zero => exact ⟨[], c, .refl c⟩
    | succ n ih =>
      obtain ⟨es, c', hreach⟩ := ih
      cases hmove : M c' with
      | go e c'' => exact ⟨_, c'', hreach.trans (.one hmove)⟩
      | stop o => exact absurd ⟨n, c', hreach, hmove⟩ (h es o)

/-! ### Runs of two machines -/

namespace SameRuns

theorem of_iff (events : ∀ es, (∃ n c', Reaches M n c es c') ↔ ∃ n d', Reaches N n d es d')
    (halts : ∀ es o, Halts M c es o ↔ Halts N d es o) : SameRuns M c N d := by
  refine ⟨events, halts, ?_⟩
  rw [runsForever_iff, runsForever_iff]
  exact forall_congr' fun es => forall_congr' fun o => not_congr (halts es o)

theorem refl (M : C → Move C E O) (c : C) : SameRuns M c M c :=
  ⟨fun _ => Iff.rfl, fun _ _ => Iff.rfl, Iff.rfl⟩

theorem symm (h : SameRuns M c N d) : SameRuns N d M c :=
  ⟨fun es => (h.events es).symm, fun es o => (h.halts es o).symm, h.forever.symm⟩

theorem trans {B : Type*} {L : B → Move B E O} {b : B} (h : SameRuns L b M c)
    (h' : SameRuns M c N d) : SameRuns L b N d :=
  ⟨fun es => (h.events es).trans (h'.events es), fun es o => (h.halts es o).trans (h'.halts es o),
    h.forever.trans h'.forever⟩

end SameRuns

/-- Every step of the first machine is matched by one or more of the second. -/
structure Simulates (M : C → Move C E O) (N : D → Move D E O) (R : C → D → Prop) : Prop where
  go : ∀ {c d e c'}, R c d → M c = .go e c' → ∃ n d', Reaches N (n + 1) d e.toList d' ∧ R c' d'
  stop : ∀ {c d o}, R c d → M c = .stop o → ∃ n d', Reaches N n d [] d' ∧ N d' = .stop o

namespace Simulates

variable {R : C → D → Prop}

/-- Machines that go step by step together. -/
theorem of_lockstep (h : ∀ c d, R c d →
      (∃ e c' d', M c = .go e c' ∧ N d = .go e d' ∧ R c' d') ∨ ∃ o, M c = .stop o ∧ N d = .stop o) :
    Simulates M N R where
  go {c d e c'} hR hc := by
    rcases h c d hR with ⟨e', c'', d', hc', hd', hR'⟩ | ⟨o, hc', -⟩
    · rw [hc] at hc'
      cases hc'
      exact ⟨0, d', .one hd', hR'⟩
    · rw [hc] at hc'
      cases hc'
  stop {c d o} hR hc := by
    rcases h c d hR with ⟨e', c'', d', hc', -⟩ | ⟨o', hc', hd'⟩
    · rw [hc] at hc'
      cases hc'
    · rw [hc] at hc'
      cases hc'
      exact ⟨0, d, .refl d, hd'⟩

variable (h : Simulates M N R)
include h

theorem reaches (hR : R c d) (hc : Reaches M n c es c') :
    ∃ n d', Reaches N n d es d' ∧ R c' d' := by
  induction hc generalizing d with
  | refl => exact ⟨0, d, .refl d, hR⟩
  | step hstep _ ih =>
    obtain ⟨m, d', hd', hR'⟩ := h.go hR hstep
    obtain ⟨n, d'', hd'', hR''⟩ := ih hR'
    exact ⟨_, d'', hd'.trans hd'', hR''⟩

/-- Events of the second machine are events of the first. -/
theorem reaches_of (hR : R c d) (hd : Reaches N n d es d') : ∃ m c', Reaches M m c es c' := by
  -- on the steps of the second machine, of which each step of the first takes some away
  induction n using Nat.strongRecOn generalizing c d es with
  | _ n ih =>
    cases hmove : M c with
    | stop o =>
      obtain ⟨k, d₁, hk, hstop⟩ := h.stop hR hmove
      have hes : es = [] := by
        rcases Nat.le_total n k with hnk | hkn
        · obtain ⟨j, rfl⟩ := Nat.exists_eq_add_of_le hnk
          obtain ⟨gs, hgs, -⟩ := hd.split hk
          exact (append_eq_nil_iff.mp hgs.symm).1
        · obtain ⟨j, rfl⟩ := Nat.exists_eq_add_of_le hkn
          obtain ⟨gs, rfl, hgs⟩ := hk.split hd
          exact (hgs.of_stop hstop).2
      exact ⟨0, c, hes ▸ .refl c⟩
    | go e c₁ =>
      obtain ⟨k, d₁, hk, hR₁⟩ := h.go hR hmove
      rcases Nat.lt_or_ge n (k + 1) with hnk | hkn
      · -- in the middle of the steps that match one of the first machine
        obtain ⟨j, hj⟩ := Nat.exists_eq_add_of_lt hnk
        rw [Nat.add_assoc] at hj
        rw [hj] at hk
        obtain ⟨gs, hgs, -⟩ := hd.split hk
        cases e with
        | none =>
          have hes := (append_eq_nil_iff.mp hgs.symm).1
          exact ⟨0, c, hes ▸ .refl c⟩
        | some e =>
          cases es with
          | nil => exact ⟨0, c, .refl c⟩
          | cons e' es =>
            rw [Option.toList_some, cons_append, List.cons.injEq] at hgs
            have hes := (append_eq_nil_iff.mp hgs.2.symm).1
            rw [← hgs.1, hes]
            exact ⟨1, c₁, .one hmove⟩
      · obtain ⟨j, rfl⟩ := Nat.exists_eq_add_of_le hkn
        obtain ⟨gs, rfl, hgs⟩ := hk.split hd
        obtain ⟨m, c', hc'⟩ := ih j (by omega) hR₁ hgs
        exact ⟨m + 1, c', .step hmove hc'⟩

theorem halts (hR : R c d) (hc : Halts M c es o) : Halts N d es o := by
  obtain ⟨n, c', hreach, hstop⟩ := hc
  obtain ⟨m, d', hd', hR'⟩ := h.reaches hR hreach
  obtain ⟨k, d'', hd'', hstop'⟩ := h.stop hR' hstop
  exact ⟨m + k, d'', append_nil es ▸ hd'.trans hd'', hstop'⟩

theorem halts_of (hR : R c d) (hd : Halts N d es o) : Halts M c es o := by
  obtain ⟨n, d', hreach, hstop⟩ := hd
  induction n using Nat.strongRecOn generalizing c d es with
  | _ n ih =>
    cases hmove : M c with
    | stop o' =>
      obtain ⟨k, d₁, hk, hstop₁⟩ := h.stop hR hmove
      rcases Nat.le_total n k with hnk | hkn
      · obtain ⟨j, rfl⟩ := Nat.exists_eq_add_of_le hnk
        obtain ⟨gs, hgs, hj⟩ := hreach.split hk
        obtain ⟨rfl, rfl⟩ := hj.of_stop hstop
        cases hj
        rw [hstop] at hstop₁
        cases hstop₁
        rw [append_nil] at hgs
        exact ⟨0, c, hgs ▸ .refl c, hmove⟩
      · obtain ⟨j, rfl⟩ := Nat.exists_eq_add_of_le hkn
        obtain ⟨gs, rfl, hj⟩ := hk.split hreach
        obtain ⟨rfl, rfl⟩ := hj.of_stop hstop₁
        cases hj
        rw [hstop] at hstop₁
        cases hstop₁
        exact ⟨0, c, .refl c, hmove⟩
    | go e c₁ =>
      obtain ⟨k, d₁, hk, hR₁⟩ := h.go hR hmove
      rcases Nat.lt_or_ge n (k + 1) with hnk | hkn
      · obtain ⟨j, hj⟩ := Nat.exists_eq_add_of_lt hnk
        rw [Nat.add_assoc] at hj
        rw [hj] at hk
        obtain ⟨gs, -, hgs⟩ := hreach.split hk
        exact absurd (hgs.of_stop hstop).1 (Nat.succ_ne_zero j)
      · obtain ⟨j, rfl⟩ := Nat.exists_eq_add_of_le hkn
        obtain ⟨gs, rfl, hgs⟩ := hk.split hreach
        obtain ⟨m, c', hc', hstop'⟩ := ih j (by omega) hR₁ hgs
        exact ⟨m + 1, c', .step hmove hc', hstop'⟩

/-- A machine that matches another one step by step has the same runs. -/
theorem sameRuns (hR : R c d) : SameRuns M c N d :=
  .of_iff
    (fun _ => ⟨fun ⟨_, _, hc⟩ =>
        let ⟨n, d', hd', _⟩ := h.reaches hR hc
        ⟨n, d', hd'⟩,
      fun ⟨_, _, hd⟩ => h.reaches_of hR hd⟩)
    fun _ _ => ⟨h.halts hR, h.halts_of hR⟩

end Simulates

/-- Steps without events change nothing of what a machine goes through. -/
theorem SameRuns.of_silent {e : Option E} (he : e = none) (h : M c = .go e c') :
    SameRuns M c M c' := by
  subst he
  refine .of_iff (fun es => ⟨?_, ?_⟩) fun es o => ⟨?_, ?_⟩
  · rintro ⟨n, c'', hreach⟩
    cases hreach with
    | refl => exact ⟨0, c', .refl c'⟩
    | step hstep hs =>
      rw [h] at hstep
      cases hstep
      exact ⟨_, c'', hs⟩
  · rintro ⟨n, c'', hreach⟩
    exact ⟨n + 1, c'', .step h hreach⟩
  · rintro ⟨n, c'', hreach, hstop⟩
    cases hreach with
    | refl =>
      rw [h] at hstop
      cases hstop
    | step hstep hs =>
      rw [h] at hstep
      cases hstep
      exact ⟨_, c'', hs, hstop⟩
  · rintro ⟨n, c'', hreach, hstop⟩
    exact ⟨n + 1, c'', .step h hreach, hstop⟩

end Move

end Codegen
