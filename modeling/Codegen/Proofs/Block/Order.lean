import Codegen.Proofs.Block.Trace
import Mathlib.Data.List.Nodup

/-!
# The order of traces is greedy

After each block comes the one that control is taken to go to, if it is not placed yet, and otherwise
the earliest one that is not (`Greedy`). The order of traces is the greedy one that begins with the
first block (`arrange_greedy`), if no two blocks have one label.
-/

namespace Codegen.Block

open List

variable {blocks : Array Block} {starts unplaced : List Nat} {i j : Nat} {l : Option Label}
  {b b' : Block}

/-- Blocks that are not yet placed, and the order in which they are from here on. The next one is
that with the label that is asked for, or the earliest one if there is no such block, and then its
successor is asked for. -/
inductive Greedy : Option (Option Label) → List Block → List Block → Prop
  | done (l : Option (Option Label)) : Greedy l [] []
  | successor {before behind rest : List Block} {b : Block}
      (h : Greedy (some b.successor) (before ++ behind) rest) :
      Greedy (some b.label) (before ++ b :: behind) (b :: rest)
  | earliest {l : Option (Option Label)} {b : Block} {behind rest : List Block}
      (hl : ∀ b' ∈ b :: behind, l ≠ some b'.label)
      (h : Greedy (some b.successor) behind rest) : Greedy l (b :: behind) (b :: rest)

/-! ### Blocks by their labels -/

theorem exists_of_indexOf? (h : indexOf? blocks l = some j) :
    ∃ b, blocks[j]? = some b ∧ b.label = l := by
  have hlabel := find?_some h
  simpa using hlabel

theorem label_ne_of_indexOf? (h : indexOf? blocks l = none) (hb : blocks[j]? = some b) :
    b.label ≠ l := by
  intro hl
  have hj : j < blocks.size := (Array.getElem?_eq_some_iff.mp hb).1
  have hnot := find?_eq_none.mp h j (by simpa using hj)
  simp [hb, hl] at hnot

/-- Blocks have different labels. -/
def Distinct (blocks : Array Block) : Prop :=
  ∀ {i j : Nat} {b b' : Block}, blocks[i]? = some b → blocks[j]? = some b' → b.label = b'.label → i = j

theorem distinct_of_nodup {list : List Block} (h : (list.map (·.label)).Nodup) :
    Distinct list.toArray := by
  intro i j b b' hi hj hlabel
  rw [getElem?_toArray] at hi hj
  have hlabels : (list.map (·.label))[i]? = (list.map (·.label))[j]? := by
    simp [hi, hj, hlabel]
  have hlt : i < (list.map (·.label)).length := by
    simpa using (List.getElem?_eq_some_iff.mp hi).1
  exact (getElem?_inj hlt h).mp hlabels

/-- The blocks with the given numbers. -/
def pick (blocks : Array Block) (is : List Nat) : List Block := is.filterMap fun i => blocks[i]?

theorem pick_append (is js : List Nat) : pick blocks (is ++ js) = pick blocks is ++ pick blocks js :=
  filterMap_append

theorem pick_cons (hb : blocks[i]? = some b) (is : List Nat) :
    pick blocks (i :: is) = b :: pick blocks is := filterMap_cons_some hb

theorem mem_pick {is : List Nat} : b ∈ pick blocks is ↔ ∃ i ∈ is, blocks[i]? = some b :=
  mem_filterMap

/-- Nothing that is asked for in vain is among the picked blocks. -/
theorem ne_label_of_next? (hb : blocks[i]? = some b) (h : next? blocks i = none) (is : List Nat) :
    ∀ b' ∈ pick blocks is, some b.successor ≠ some b'.label := by
  intro b' hb' heq
  obtain ⟨j, -, hj⟩ := mem_pick.mp hb'
  rw [next?, hb, Option.bind_some] at h
  exact label_ne_of_indexOf? h hj (Option.some.inj heq).symm

theorem exists_of_next? (hb : blocks[i]? = some b) (h : next? blocks i = some j) :
    ∃ b', blocks[j]? = some b' ∧ b'.label = b.successor := by
  rw [next?, hb, Option.bind_some] at h
  exact exists_of_indexOf? h

/-! ### One trace -/

theorem follow_left_sublist (blocks : Array Block) (unplaced : List Nat) (i : Nat) :
    (follow blocks unplaced i).2.Sublist (unplaced.erase i) := by
  fun_induction follow blocks unplaced i with
  | case1 unplaced i hi => exact .refl _
  | case2 unplaced i hi j _ trace left hrest ih =>
    rw [hrest] at ih
    exact ih.trans erase_sublist
  | case3 unplaced i hi => rw [erase_of_not_mem hi]

/-- A trace that is asked for goes on greedily, if what follows it is greedy whatever label is asked for
in vain. -/
theorem follow_greedy (hdistinct : Distinct blocks) {rest : List Block} (hb : blocks[i]? = some b)
    (hrest : ∀ l, (∀ b' ∈ pick blocks (follow blocks unplaced i).2, l ≠ some b'.label) →
      Greedy l (pick blocks (follow blocks unplaced i).2) rest) :
    Greedy (some b.label) (pick blocks unplaced)
      (pick blocks (follow blocks unplaced i).1 ++ rest) := by
  fun_induction follow blocks unplaced i generalizing b with
  | case1 unplaced i hi hnone =>
    obtain ⟨before, behind, -, hsplit, herase⟩ := exists_erase_eq hi
    have htail := hrest _ (ne_label_of_next? hb hnone _)
    rw [herase, pick_append] at htail
    rw [hsplit, pick_append, pick_cons hb, pick_cons hb]
    exact .successor htail
  | case2 unplaced i hi j hsome trace left hfollow ih =>
    obtain ⟨b', hb', hlabel⟩ := exists_of_next? hb hsome
    obtain ⟨before, behind, -, hsplit, herase⟩ := exists_erase_eq hi
    rw [hfollow] at ih
    have htail := ih hb' hrest
    rw [hlabel, herase, pick_append] at htail
    rw [hsplit, pick_append, pick_cons hb, pick_cons hb]
    exact .successor htail
  | case3 unplaced i hi =>
    refine hrest _ fun b' hb' hlabel => hi ?_
    obtain ⟨j, hj, hget⟩ := mem_pick.mp hb'
    rwa [hdistinct hb hget (Option.some.inj hlabel)]

/-! ### All traces -/

theorem traces_greedy (hdistinct : Distinct blocks) {l : Option (Option Label)}
    (hsub : unplaced.Sublist starts) (hnodup : starts.Nodup) (hlt : ∀ i ∈ unplaced, i < blocks.size)
    (hl : ∀ b ∈ pick blocks unplaced, l ≠ some b.label) :
    Greedy l (pick blocks unplaced) (pick blocks (traces blocks starts unplaced)) := by
  induction starts generalizing unplaced l with
  | nil =>
    rw [sublist_nil.mp hsub]
    exact .done l
  | cons start starts ih =>
    obtain ⟨hstart, hnodup⟩ := nodup_cons.mp hnodup
    rw [traces]
    cases hsub with
    | cons _ hsub =>
      -- the start is placed already
      rw [follow, if_neg fun h => hstart (hsub.subset h)]
      exact ih hsub hnodup hlt hl
    | @cons_cons unplaced _ _ hsub =>
      obtain ⟨hb, hlt⟩ := forall_mem_cons.mp hlt
      have hb : blocks[start]? = some blocks[start] := Array.getElem?_eq_getElem hb
      generalize blocks[start] = b at hb
      rw [pick_cons hb] at hl ⊢
      rw [follow, if_pos mem_cons_self, erase_cons_head]
      cases hnext : next? blocks start with
      | none =>
        dsimp only
        rw [singleton_append, pick_cons hb]
        exact .earliest hl (ih hsub hnodup hlt (ne_label_of_next? hb hnext _))
      | some j =>
        obtain ⟨b', hb', hlabel⟩ := exists_of_next? hb hnext
        have hleft := (follow_left_sublist blocks unplaced j).trans erase_sublist
        dsimp only
        rw [cons_append, pick_cons hb, pick_append]
        refine .earliest hl ?_
        rw [← hlabel]
        exact follow_greedy hdistinct hb' fun l hl =>
          ih (hleft.trans hsub) hnodup (fun i hi => hlt i (hleft.subset hi)) hl

theorem arrange_greedy {list : List Block} (h : (list.map (·.label)).Nodup) :
    Greedy none list (arrange list) := by
  have hpick : ∀ is, pick list.toArray is = is.filterMap fun i => list[i]? := by simp [pick]
  have hall : pick list.toArray (List.range list.toArray.size) = list := by
    rw [hpick, size_toArray, filterMap_range_getElem?]
  have hgreedy : Greedy none (pick list.toArray (List.range list.toArray.size))
      (pick list.toArray (order list.toArray)) :=
    traces_greedy (distinct_of_nodup h) (List.Sublist.refl _) nodup_range
      (fun i hi => mem_range.mp hi) nofun
  rwa [hall, hpick] at hgreedy

end Codegen.Block
