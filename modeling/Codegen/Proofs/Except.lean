import Mathlib.Data.List.Forall2

/-!
# Computations that can fail

Several steps succeed if each of them does, and otherwise fail like one of them.
-/

namespace Codegen

open List

variable {α β ε : Type} {x : Except ε α} {f : α → Except ε β} {xs : List α} {ys : List β} {e : ε}

theorem bind_eq_ok_iff {b : β} : (x >>= f) = .ok b ↔ ∃ a, x = .ok a ∧ f a = .ok b := by
  cases x <;> simp [bind, Except.bind]

theorem bind_eq_error_iff :
    (x >>= f) = .error e ↔ x = .error e ∨ ∃ a, x = .ok a ∧ f a = .error e := by
  cases x <;> simp [bind, Except.bind]

theorem mapM_eq_ok_iff : xs.mapM f = .ok ys ↔ List.Forall₂ (fun x y => f x = .ok y) xs ys := by
  induction xs generalizing ys with
  | nil =>
    rw [mapM_nil, forall₂_nil_left_iff]
    exact ⟨fun h => by cases h; rfl, fun h => h ▸ rfl⟩
  | cons x xs ih =>
    simp only [mapM_cons, bind_eq_ok_iff, ih, forall₂_cons_left_iff]
    constructor
    · rintro ⟨y, hy, ys, hys, ⟨⟩⟩
      exact ⟨y, ys, hy, hys, rfl⟩
    · rintro ⟨y, ys, hy, hys, rfl⟩
      exact ⟨y, hy, ys, hys, rfl⟩

/-- Of several steps that can fail it is one of them that fails. -/
theorem exists_error_of_mapM (h : xs.mapM f = .error e) : ∃ x ∈ xs, f x = .error e := by
  induction xs with
  | nil => cases h
  | cons x xs ih =>
    rw [mapM_cons, bind_eq_error_iff] at h
    obtain hx | ⟨y, -, h⟩ := h
    · exact ⟨x, mem_cons_self, hx⟩
    · obtain hxs | ⟨ys, -, ⟨⟩⟩ := bind_eq_error_iff.mp h
      obtain ⟨x', hmem, hx'⟩ := ih hxs
      exact ⟨x', mem_cons_of_mem _ hmem, hx'⟩

theorem exists_error_of_foldlM {g : β → α → Except ε β} {b : β} (h : xs.foldlM g b = .error e) :
    ∃ x ∈ xs, ∃ b, g b x = .error e := by
  induction xs generalizing b with
  | nil => cases h
  | cons x xs ih =>
    rw [foldlM_cons, bind_eq_error_iff] at h
    obtain hx | ⟨b', -, h⟩ := h
    · exact ⟨x, mem_cons_self, b, hx⟩
    · obtain ⟨x', hmem, hx'⟩ := ih h
      exact ⟨x', mem_cons_of_mem _ hmem, hx'⟩

theorem exists_forall₂_iff {R : α → β → Prop} :
    (∃ ys, List.Forall₂ R xs ys) ↔ ∀ x ∈ xs, ∃ y, R x y := by
  induction xs with
  | nil => simp
  | cons x xs ih =>
    rw [forall_mem_cons, ← ih]
    constructor
    · rintro ⟨_, _ | ⟨hx, hxs⟩⟩
      exact ⟨⟨_, hx⟩, _, hxs⟩
    · rintro ⟨⟨y, hy⟩, ys, hys⟩
      exact ⟨y :: ys, .cons hy hys⟩

theorem exists_mem_of_forall₂ {R : α → β → Prop} {b : β} (h : List.Forall₂ R xs ys)
    (hb : b ∈ ys) : ∃ a ∈ xs, R a b := by
  induction h with
  | nil => cases hb
  | cons hr _ ih =>
    obtain rfl | hb := mem_cons.mp hb
    · exact ⟨_, mem_cons_self, hr⟩
    · obtain ⟨a, ha, hr⟩ := ih hb
      exact ⟨a, mem_cons_of_mem _ ha, hr⟩

end Codegen
