import Codegen.Coloring.Worklist
import Mathlib.Data.List.Nodup
import Mathlib.Data.List.Perm.Subperm

/-!
# Worklists as partitions

Every item is on the list of its state, once, and on no other list (`Wf`). Entering a first state
and changing states keep that.
-/

namespace Codegen

open List

/-- The numbers of states tell them apart and are in range. -/
class LawfulNumbered (σ : Type) [Numbered σ] : Prop where
  number_lt : ∀ s : σ, Numbered.number s < Numbered.count σ
  number_inj : ∀ {s t : σ}, Numbered.number s = Numbered.number t → s = t

theorem NodeState.all_number (s : NodeState) : NodeState.all[s.number]? = some s := by
  cases s <;> rfl

theorem MoveState.all_number (s : MoveState) : MoveState.all[s.number]? = some s := by
  cases s <;> rfl

instance : LawfulNumbered NodeState where
  number_lt s := (List.getElem?_eq_some_iff.mp s.all_number).1
  number_inj {s t} h := by
    have h' : s.number = t.number := h
    have hst := s.all_number
    rw [h', t.all_number] at hst
    exact (Option.some.inj hst).symm

instance : LawfulNumbered MoveState where
  number_lt s := (List.getElem?_eq_some_iff.mp s.all_number).1
  number_inj {s t} h := by
    have h' : s.number = t.number := h
    have hst := s.all_number
    rw [h', t.all_number] at hst
    exact (Option.some.inj hst).symm

theorem getD_modify {α : Type} (a : Array α) (i j : Nat) (f : α → α) (d : α) :
    (a.modify i f).getD j d = if i = j ∧ j < a.size then f (a.getD j d) else a.getD j d := by
  simp only [Array.getD_eq_getD_getElem?, Array.getElem?_modify]
  by_cases h : i = j
  · subst h
    by_cases hi : i < a.size
    · simp [hi]
    · simp [hi]
  · simp [h]

namespace Worklist

theorem list_modify {σ : Type} [Numbered σ] [DecidableEq σ] [LawfulNumbered σ] {w : Worklist σ}
    {s t : σ} (hl : w.lists.size = Numbered.count σ) (f : List Nat → List Nat) :
    list { w with lists := w.lists.modify (Numbered.number s) f } t =
      if t = s then f (w.list t) else w.list t := by
  unfold list
  rw [getD_modify, hl]
  by_cases h : t = s
  · subst h
    simp [LawfulNumbered.number_lt]
  · rw [if_neg h, if_neg]
    exact fun hn => h (LawfulNumbered.number_inj hn.1).symm

section Basic

variable {σ : Type} [Inhabited σ] {w : Worklist σ} {i j n : Nat} {s t : σ}

theorem get_of_le (h : w.state.size ≤ i) : w.get i = default := by
  rw [get, Array.getD_eq_getD_getElem?, Array.getElem?_eq_none h, Option.getD_none]

variable [Numbered σ]

theorem get_enter (hi : i < w.state.size) :
    (w.enter i s).get j = if j = i then s else w.get j := by
  simp only [get, enter, Array.getD_eq_getD_getElem?, Array.getElem?_setIfInBounds]
  by_cases h : i = j
  · subst h
    simp [hi]
  · simp [h, Ne.symm h]

theorem size_lists_leave : (w.leave i).lists.size = w.lists.size := by
  simp [leave]

theorem get_set (hi : i < w.state.size) :
    (w.set i s).get j = if j = i then s else w.get j := get_enter hi

/-- Every item is on exactly the list of its state. Items in the first state are on none. -/
structure Wf (w : Worklist σ) (n : Nat) : Prop where
  size_state : w.state.size = n
  size_lists : w.lists.size = Numbered.count σ
  mem_list : ∀ {s i}, i ∈ w.list s ↔ i < n ∧ w.get i = s ∧ s ≠ default
  nodup : ∀ s, (w.list s).Nodup

theorem wf_ofSize (n : Nat) : (ofSize n : Worklist σ).Wf n := by
  have hlist : ∀ s : σ, (ofSize n : Worklist σ).list s = [] := by
    intro s
    simp only [list, ofSize, Array.getD_eq_getD_getElem?, Array.getElem?_replicate]
    split <;> rfl
  have hget : ∀ i, (ofSize n : Worklist σ).get i = default := by
    intro i
    simp only [get, ofSize, Array.getD_eq_getD_getElem?, Array.getElem?_replicate]
    split <;> rfl
  refine ⟨by simp [ofSize], by simp [ofSize], fun {s i} => ?_, fun s => ?_⟩
  · rw [hlist, hget]
    simp only [not_mem_nil, false_iff, not_and, not_not]
    exact fun _ h => h.symm
  · rw [hlist]
    exact nodup_nil

namespace Wf

theorem lt_of_get (h : w.Wf n) (hi : w.get i ≠ default) : i < n := by
  by_contra hn
  exact hi (get_of_le (by rw [h.size_state]; omega))

theorem mem_list_of_ne (h : w.Wf n) (hs : s ≠ default) : i ∈ w.list s ↔ w.get i = s := by
  rw [h.mem_list]
  constructor
  · exact fun hi => hi.2.1
  · exact fun hi => ⟨h.lt_of_get (hi ▸ hs), hi, hs⟩

/-- An item is on the list of its state and on no other. -/
theorem mem_list_iff_eq (h : w.Wf n) (hi : w.get i = s) (hs : s ≠ default) :
    i ∈ w.list t ↔ t = s := by
  rw [h.mem_list, hi]
  constructor
  · exact fun ht => ht.2.1.symm
  · rintro rfl
    exact ⟨h.lt_of_get (hi ▸ hs), rfl, hs⟩

theorem length_list_le (h : w.Wf n) (s : σ) : (w.list s).length ≤ n := by
  have hsub : w.list s ⊆ List.range n := fun i hi => mem_range.mpr (h.mem_list.mp hi).1
  simpa using ((h.nodup s).subperm hsub).length_le

end Wf

end Basic

variable {σ : Type} [Numbered σ] [Inhabited σ] [DecidableEq σ] [LawfulNumbered σ]
variable {w : Worklist σ} {i j n : Nat} {s t : σ}

omit [Inhabited σ] in
theorem list_enter (hl : w.lists.size = Numbered.count σ) :
    (w.enter i s).list t = if t = s then w.list t ++ [i] else w.list t := list_modify hl _

theorem list_leave (hl : w.lists.size = Numbered.count σ) :
    (w.leave i).list t = if t = w.get i then (w.list t).erase i else w.list t := list_modify hl _

theorem list_set (hl : w.lists.size = Numbered.count σ) :
    (w.set i s).list t = if t = s then (w.leave i).list t ++ [i] else (w.leave i).list t :=
  list_enter (size_lists_leave.trans hl)

namespace Wf

theorem enter (h : w.Wf n) (hi : i < n) (hg : w.get i = default) (hs : s ≠ default) :
    (w.enter i s).Wf n := by
  have hi' : i < w.state.size := h.size_state ▸ hi
  have hnot : ∀ t, i ∉ w.list t := by
    intro t ht
    obtain ⟨-, h1, h2⟩ := h.mem_list.mp ht
    exact h2 (h1.symm.trans hg)
  refine ⟨by simpa [Worklist.enter] using h.size_state, by simpa [Worklist.enter] using h.size_lists,
    fun {t j} => ?_, fun t => ?_⟩
  · rw [list_enter h.size_lists, get_enter hi']
    by_cases hts : t = s
    · subst hts
      rw [if_pos rfl, mem_append, mem_singleton, h.mem_list]
      by_cases hji : j = i
      · subst hji
        simp [hi, hs]
      · simp [hji]
    · rw [if_neg hts, h.mem_list]
      by_cases hji : j = i
      · subst hji
        simp only [hg, if_true]
        constructor
        · rintro ⟨-, h1, h2⟩
          exact absurd h1.symm h2
        · rintro ⟨-, h1, -⟩
          exact absurd h1.symm hts
      · simp [hji]
  · rw [list_enter h.size_lists]
    split
    · exact nodup_append'.mpr ⟨h.nodup t, by simp, by simpa using hnot t⟩
    · exact h.nodup t

theorem set (h : w.Wf n) (hi : i < n) (hs : s ≠ default) : (w.set i s).Wf n := by
  have hi' : i < w.state.size := h.size_state ▸ hi
  have hleave : ∀ {t j}, j ∈ (w.leave i).list t ↔ j < n ∧ w.get j = t ∧ t ≠ default ∧ j ≠ i := by
    intro t j
    rw [list_leave h.size_lists]
    split
    · rename_i ht
      rw [(h.nodup t).mem_erase_iff, h.mem_list]
      tauto
    · rename_i ht
      rw [h.mem_list]
      constructor
      · rintro ⟨h1, h2, h3⟩
        exact ⟨h1, h2, h3, fun hji => ht (by rw [← h2, hji])⟩
      · rintro ⟨h1, h2, h3, -⟩
        exact ⟨h1, h2, h3⟩
  have hnd : ∀ t, ((w.leave i).list t).Nodup := by
    intro t
    rw [list_leave h.size_lists]
    split
    · exact (h.nodup t).erase i
    · exact h.nodup t
  refine ⟨by simpa [Worklist.set, Worklist.enter, leave] using h.size_state,
    by simpa [Worklist.set, Worklist.enter, leave] using h.size_lists, fun {t j} => ?_, fun t => ?_⟩
  · rw [list_set h.size_lists, get_set hi']
    by_cases hts : t = s
    · subst hts
      rw [if_pos rfl, mem_append, mem_singleton, hleave]
      by_cases hji : j = i
      · subst hji
        simp [hi, hs]
      · simp [hji]
    · rw [if_neg hts, hleave]
      by_cases hji : j = i
      · subst hji
        simp [Ne.symm hts]
      · simp [hji]
  · rw [list_set h.size_lists]
    split
    · refine nodup_append'.mpr ⟨hnd t, by simp, ?_⟩
      simpa using fun hm => (hleave.mp hm).2.2.2 rfl
    · exact hnd t

/-- A list that an item neither leaves nor enters stays as it is. -/
theorem list_set_of_ne (h : w.Wf n) (hs : t ≠ s) (ht : t ≠ w.get i) :
    (w.set i s).list t = w.list t := by
  rw [list_set h.size_lists, if_neg hs, list_leave h.size_lists, if_neg ht]

/-- An item enters the list of its new state behind all others. -/
theorem list_set_self (h : w.Wf n) (hs : w.get i ≠ s) : (w.set i s).list s = w.list s ++ [i] := by
  rw [list_set h.size_lists, if_pos rfl, list_leave h.size_lists, if_neg (Ne.symm hs)]

end Wf

end Worklist

end Codegen
