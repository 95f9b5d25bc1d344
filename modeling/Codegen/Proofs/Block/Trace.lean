import Codegen.Block.Trace
import Mathlib.Data.List.Basic
import Mathlib.Data.List.Perm.Basic

/-!
# Traces hold every block once

The order of traces is a permutation of the blocks (`arrange_perm`) that begins with the first of
them (`head?_arrange`).
-/

namespace Codegen.Block

open List

variable {unplaced : List Nat} {i : Nat} (blocks : Array Block)

/-- A trace takes blocks away from those not yet placed. -/
theorem follow_perm (unplaced : List Nat) (i : Nat) :
    ((follow blocks unplaced i).1 ++ (follow blocks unplaced i).2).Perm unplaced := by
  fun_induction follow blocks unplaced i with
  | case1 unplaced i hi => exact (perm_cons_erase hi).symm
  | case2 unplaced i hi j _ trace left hrest ih =>
    rw [hrest] at ih
    exact (ih.cons i).trans (perm_cons_erase hi).symm
  | case3 unplaced i _ => exact .refl _

/-- A trace starts with the block that it is followed from. -/
theorem head?_follow (hi : i ∈ unplaced) : (follow blocks unplaced i).1.head? = some i := by
  rw [follow, if_pos hi]
  split <;> rfl

/-- Traces from enough starts take all blocks. -/
theorem traces_perm {starts : List Nat} (hnodup : unplaced.Nodup)
    (hstarts : unplaced ⊆ starts) : (traces blocks starts unplaced).Perm unplaced := by
  induction starts generalizing unplaced with
  | nil => rw [subset_nil.mp hstarts, traces]
  | cons start rest ih =>
    have hperm := follow_perm blocks unplaced start
    have hhead : start ∈ unplaced → _ := fun h => head?_follow blocks h
    rw [traces]
    generalize follow blocks unplaced start = result at hperm hhead
    obtain ⟨trace, left⟩ := result
    dsimp only at hperm hhead ⊢
    obtain ⟨-, hnodup', hdisjoint⟩ := nodup_append.mp (hperm.nodup_iff.mpr hnodup)
    -- the start is not left over
    have hleft : left ⊆ rest := by
      intro j hj
      have hmem : j ∈ unplaced := hperm.subset (mem_append_right trace hj)
      rcases mem_cons.mp (hstarts hmem) with rfl | hrest
      · exact absurd rfl (hdisjoint j (mem_of_mem_head? (hhead hmem)) j hj)
      · exact hrest
    exact ((ih hnodup' hleft).append_left trace).trans hperm

theorem order_perm : (order blocks).Perm (List.range blocks.size) :=
  traces_perm blocks nodup_range (List.Subset.refl _)

theorem filterMap_range_getElem? (list : List Block) :
    (List.range list.length).filterMap (fun i => list[i]?) = list := by
  induction list with
  | nil => rfl
  | cons b list ih =>
    rw [length_cons, range_succ_eq_map, filterMap_cons]
    dsimp only [getElem?_cons_zero]
    rw [filterMap_map]
    exact congrArg (b :: ·) ih

/-- Every block has one place in the order of traces. -/
theorem arrange_perm (list : List Block) : (arrange list).Perm list := by
  have h := (order_perm list.toArray).filterMap fun i => list[i]?
  rw [size_toArray, filterMap_range_getElem?] at h
  exact h

theorem head?_arrange (list : List Block) : (arrange list).head? = list.head? := by
  cases list with
  | nil => rfl
  | cons b list =>
    have hzero : 0 ∈ List.range (b :: list).toArray.size := mem_range.mpr (Nat.succ_pos _)
    have hrange : List.range (b :: list).toArray.size =
        0 :: (List.range list.length).map Nat.succ := range_succ_eq_map
    have hhead := head?_follow (b :: list).toArray hzero
    have horder : (order (b :: list).toArray).head? = some 0 := by
      rw [order]
      nth_rewrite 1 [hrange]
      rw [traces]
      generalize follow (b :: list).toArray (List.range (b :: list).toArray.size) 0 = result
        at hhead ⊢
      obtain ⟨trace, left⟩ := result
      dsimp only at hhead ⊢
      rw [head?_append, hhead]
      rfl
    rw [arrange]
    generalize order (b :: list).toArray = is at horder ⊢
    obtain ⟨is, rfl⟩ := head?_eq_some_iff.mp horder
    rfl

end Codegen.Block
