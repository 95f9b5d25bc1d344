import Codegen.Error

/-!
# Reasoning about stages

`Ends x s ok err` says how a stage that works on a state comes to an end: with a value and a state of
which `ok` holds, or with a failure of which `err` holds. There is a rule for each way to build
stages.
-/

namespace Codegen

/-- The family of a failure, if it reports an error. -/
def Failure.kind? : Failure → Option ErrorKind
  | .error e => some e.kind
  | .trap => none

namespace Pass

variable {σ α β : Type} {x : Pass σ α} {s : σ} {ok ok' : α → σ → Prop} {err err' : Failure → Prop}

/-- The stage ends well with `ok`, or fails with `err`. -/
def Ends (x : Pass σ α) (s : σ) (ok : α → σ → Prop) (err : Failure → Prop) : Prop :=
  match x s with
  | .ok a s' => ok a s'
  | .error e _ => err e

instance decidableEnds [∀ a s', Decidable (ok a s')] [∀ e, Decidable (err e)] :
    Decidable (Ends x s ok err) :=
  match h : x s with
  | .ok a s' => decidable_of_iff (ok a s') (by rw [Ends, h])
  | .error e _ => decidable_of_iff (err e) (by rw [Ends, h])

theorem Ends.of_ok (h : Ends x s ok err) {a : α} {s' : σ} (hx : x s = .ok a s') : ok a s' := by
  unfold Ends at h
  rwa [hx] at h

theorem Ends.of_error (h : Ends x s ok err) {e : Failure} {s' : σ} (hx : x s = .error e s') :
    err e := by
  unfold Ends at h
  rwa [hx] at h

theorem ends_of_eq {a : α} {s' : σ} (hx : x s = .ok a s') (h : ok a s') : Ends x s ok err := by
  unfold Ends
  rwa [hx]

theorem ends_self : Ends x s (fun a s' => x s = .ok a s') fun e => ∃ s', x s = .error e s' := by
  unfold Ends
  split
  · assumption
  · exact ⟨_, ‹_›⟩

/-- Of a stage that may fail in any way only what it returns matters. -/
theorem ends_of_forall (h : ∀ a s', x s = .ok a s' → ok a s') : Ends x s ok fun _ => True := by
  unfold Ends
  split
  · exact h _ _ ‹_›
  · trivial

/-- What is to hold under a condition only. -/
theorem ends_of_imp {p : Prop} (h : p → Ends x s ok fun _ => True) :
    Ends x s (fun a s' => p → ok a s') fun _ => True :=
  ends_of_forall fun _ _ hx hp => (h hp).of_ok hx

/-- A stage that can not fail returns. -/
theorem Ends.returns (h : Ends x s ok fun _ => False) : ∃ a s', x s = .ok a s' ∧ ok a s' := by
  unfold Ends at h
  split at h
  · rename_i a s' hx
    exact ⟨a, s', hx, h⟩
  · exact h.elim

/-- A stage that can only fail, and then reports an error of some family. -/
theorem Ends.fails {kind : ErrorKind} (h : Ends x s (fun _ _ => False) fun e => e.kind? = some kind) :
    ∃ e s', x s = .error (.error e) s' ∧ e.kind = kind := by
  unfold Ends at h
  split at h
  · exact h.elim
  · rename_i f s' hx
    cases f with
    | error e => exact ⟨e, s', hx, Option.some.inj h⟩
    | trap => cases h

theorem Ends.mono (h : Ends x s ok err) (hok : ∀ a s', ok a s' → ok' a s')
    (herr : ∀ e, err e → err' e) : Ends x s ok' err' := by
  unfold Ends at h ⊢
  split
  · rename_i hx
    rw [hx] at h
    exact hok _ _ h
  · rename_i hx
    rw [hx] at h
    exact herr _ h

theorem Ends.imp (h : Ends x s ok err) (hok : ∀ a s', ok a s' → ok' a s') : Ends x s ok' err :=
  h.mono hok fun _ => id

theorem Ends.and (h : Ends x s ok err) (h' : Ends x s ok' err') :
    Ends x s (fun a s' => ok a s' ∧ ok' a s') fun e => err e ∧ err' e := by
  unfold Ends at h h' ⊢
  split
  · rename_i hx
    rw [hx] at h h'
    exact ⟨h, h'⟩
  · rename_i hx
    rw [hx] at h h'
    exact ⟨h, h'⟩

theorem ends_bind {f : α → Pass σ β} {ok : β → σ → Prop} :
    Ends (x >>= f) s ok err ↔ Ends x s (fun a s' => Ends (f a) s' ok err) err := by
  unfold Ends
  show (match EStateM.bind x f s with | .ok a s' => _ | .error e _ => _) ↔ _
  unfold EStateM.bind
  cases x s with
  | ok a s' => rfl
  | error e s' => rfl

theorem Ends.bind {f : α → Pass σ β} {ok' : β → σ → Prop} (h : Ends x s ok err)
    (hf : ∀ a s', ok a s' → Ends (f a) s' ok' err) : Ends (x >>= f) s ok' err :=
  ends_bind.mpr (h.imp hf)

theorem ends_map {f : α → β} {ok : β → σ → Prop} :
    Ends (f <$> x) s ok err ↔ Ends x s (fun a s' => ok (f a) s') err := by
  unfold Ends
  show (match EStateM.map f x s with | .ok a s' => _ | .error e _ => _) ↔ _
  unfold EStateM.map
  cases x s with
  | ok a s' => rfl
  | error e s' => rfl

/-- A context is put around errors only. -/
theorem ends_within {place : Context} : Ends (Pass.within place x) s ok err ↔
    Ends x s ok fun
      | .error e => err (.error (.within place e))
      | .trap => err .trap := by
  unfold Ends Pass.within
  cases x s with
  | ok a s' => rfl
  | error e s' => cases e <;> rfl

theorem Ends.within (h : Ends x s ok fun _ => True) (place : Context) :
    Ends (Pass.within place x) s ok fun _ => True :=
  ends_within.mpr (h.mono (fun _ _ => id) fun e _ => by cases e <;> trivial)

theorem Ends.within_unless (h : Ends x s ok fun _ => True) (c : Prop) [Decidable c]
    (place : Context) : Ends (if c then x else Pass.within place x) s ok fun _ => True := by
  split
  · exact h
  · exact h.within place

theorem within_bind (place : Context) (x : Pass σ α) (f : α → Pass σ β) :
    within place (x >>= f) = within place x >>= fun a => within place (f a) := by
  funext s
  show within place (EStateM.bind x f) s = EStateM.bind (within place x) (fun a => within place (f a)) s
  unfold within EStateM.bind
  dsimp only
  cases x s with
  | ok a s' => rfl
  | error e s' => cases e <;> rfl

/-- Stages that agree on what they are given. -/
theorem bind_congr_ends {f g : α → Pass σ β} {ok : α → Prop}
    (h : ∀ s, Ends x s (fun a _ => ok a) fun _ => True) (hfg : ∀ a, ok a → f a = g a) :
    x >>= f = x >>= g := by
  funext s
  show EStateM.bind x f s = EStateM.bind x g s
  unfold EStateM.bind
  cases hx : x s with
  | ok a s' => exact congrFun (hfg a ((h s).of_ok hx)) s'
  | error e s' => rfl

/-- A stage that can not fail can not fail in a context. -/
theorem Ends.within_of_returns (h : Ends x s ok fun _ => False) (place : Context) :
    Ends (Pass.within place x) s ok fun _ => False :=
  ends_within.mpr (h.mono (fun _ _ => id) fun _ => False.elim)

theorem ends_zoom {τ : Type} {get : σ → τ} {set : τ → σ → σ} {x : Pass τ α} :
    Ends (zoom get set x) s ok err ↔ Ends x (get s) (fun a t => ok a (set t s)) err := by
  unfold Ends zoom
  cases x (get s) with
  | ok a t => rfl
  | error e t => rfl

theorem ends_orTrap {o : Option α} (hok : ∀ a, o = some a → ok a s) (htrap : o = none → err .trap) :
    Ends (orTrap o) s ok err := by
  cases o with
  | none => exact htrap rfl
  | some a => exact hok a rfl

theorem ends_pure {a : α} : Ends (pure a) s ok err ↔ ok a s := Iff.rfl

theorem ends_fail {e : Error} : Ends (fail e) s ok err ↔ err (.error e) := Iff.rfl

theorem ends_trap : Ends trap s ok err ↔ err .trap := Iff.rfl

theorem ends_step {f : σ → α × σ} : Ends (step f) s ok err ↔ ok (f s).1 (f s).2 := Iff.rfl

theorem ends_get {ok : σ → σ → Prop} : Ends get s ok err ↔ ok s s := Iff.rfl

theorem ends_modify {f : σ → σ} {ok : PUnit → σ → Prop} :
    Ends (modify f) s ok err ↔ ok ⟨⟩ (f s) := Iff.rfl

-- what a stage computes is never looked into: its rules are all that is used of `Ends`
attribute [irreducible] Ends

/-! ### Two stages side by side -/

section Alike

variable {σ τ α β γ δ : Type} {x : Pass σ α} {y : Pass τ β} {s : σ} {t : τ}
  {ok ok' : α → σ → β → τ → Prop} {err err' : Failure → σ → Failure → τ → Prop}

/-- Two stages end alike, both with values or both with failures. -/
def Alike (x : Pass σ α) (y : Pass τ β) (s : σ) (t : τ) (ok : α → σ → β → τ → Prop)
    (err : Failure → σ → Failure → τ → Prop) : Prop :=
  match x s, y t with
  | .ok a s', .ok b t' => ok a s' b t'
  | .error e s', .error f t' => err e s' f t'
  | _, _ => False

theorem alike_bind {f : α → Pass σ γ} {g : β → Pass τ δ} {ok : γ → σ → δ → τ → Prop}
    (h : Alike x y s t (fun a s' b t' => Alike (f a) (g b) s' t' ok err) err) :
    Alike (x >>= f) (y >>= g) s t ok err := by
  unfold Alike at h ⊢
  show (match EStateM.bind x f s, EStateM.bind y g t with
    | .ok a s', .ok b t' => ok a s' b t'
    | .error e s', .error f t' => err e s' f t'
    | _, _ => False)
  unfold EStateM.bind
  revert h
  cases x s <;> cases y t
  · exact id
  · exact False.elim
  · exact False.elim
  · exact id

theorem Alike.mono (h : Alike x y s t ok err) (hok : ∀ a s' b t', ok a s' b t' → ok' a s' b t')
    (herr : ∀ e s' f t', err e s' f t' → err' e s' f t') : Alike x y s t ok' err' := by
  unfold Alike at h ⊢
  revert h
  cases x s <;> cases y t
  · exact hok _ _ _ _
  · exact id
  · exact id
  · exact herr _ _ _ _

/-- If the first stage returns, so does the second. -/
theorem Alike.of_ok (h : Alike x y s t ok err) {a : α} {s' : σ} (hx : x s = .ok a s') :
    ∃ b t', y t = .ok b t' ∧ ok a s' b t' := by
  unfold Alike at h
  rw [hx] at h
  cases hy : y t with
  | ok b t' =>
    rw [hy] at h
    exact ⟨b, t', rfl, h⟩
  | error e t' =>
    rw [hy] at h
    exact h.elim

/-- What the two stages return may be looked at. -/
theorem Alike.and_returns (h : Alike x y s t ok err) :
    Alike x y s t (fun a s' b t' => ok a s' b t' ∧ x s = .ok a s' ∧ y t = .ok b t') err := by
  unfold Alike at h ⊢
  revert h
  cases x s <;> cases y t
  · exact fun h => ⟨h, rfl, rfl⟩
  · exact id
  · exact id
  · exact id

theorem alike_pure {a : α} {b : β} (h : ok a s b t) : Alike (pure a) (pure b) s t ok err := h

theorem alike_fail {e f : Error} (h : err (.error e) s (.error f) t) :
    Alike (fail e) (fail f) s t ok err := h

theorem alike_trap (h : err .trap s .trap t) : Alike trap trap s t ok err := h

theorem alike_get {ok : σ → σ → τ → τ → Prop} (h : ok s s t t) : Alike get get s t ok err := h

theorem alike_step {f : σ → α × σ} {g : τ → β × τ} (h : ok (f s).1 (f s).2 (g t).1 (g t).2) :
    Alike (step f) (step g) s t ok err := h

theorem alike_modify {f : σ → σ} {g : τ → τ} {ok : PUnit → σ → PUnit → τ → Prop}
    (h : ok ⟨⟩ (f s) ⟨⟩ (g t)) : Alike (modify f) (modify g) s t ok err := h

attribute [irreducible] Alike

end Alike

end Pass

end Codegen
