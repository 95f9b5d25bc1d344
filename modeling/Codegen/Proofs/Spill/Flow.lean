import Codegen.Proofs.Flow
import Codegen.Proofs.Spill.Patch

/-!
# Control flow of patched code

The code of a patched instruction begins at `start`. Loads and stores neither jump nor place labels,
and an instruction with a label has no loads if it reads no register; so jumps go from one patched
instruction to the beginning of another (`placesAt_iff`), and the code stays well labelled.
-/

namespace Codegen.Patch

open List

variable {d : Dialect} {fp r : Option Reg} {bs : List Patch} {b b' : Patch} {i i' j j' p : Nat}
  {x : Instr}

/-! ### The parts of a patched instruction -/

variable (d fp) in
/-- The place of the instruction behind its loads. -/
def offset (b : Patch) : Nat := (b.loads d fp).length

variable (d fp) in
theorem offset_lt (b : Patch) : b.offset d fp < (b.code d fp).length := by
  simp [offset, code]

theorem length_code (b : Patch) :
    (b.code d fp).length = b.offset d fp + 1 + (b.stores d fp).length := by
  simp only [code, offset, length_append, length_cons]
  omega

theorem code_get_lt (hj : j < b.offset d fp) : ∃ a ∈ b.standIns, a.reg ∈ b.instr.reads ∧
    (b.code d fp)[j]? = some (d.loadSlot fp a.off a.temp) := by
  have hget : (b.code d fp)[j]? = (b.loads d fp)[j]? := getElem?_append_left hj
  have hmem : (b.loads d fp)[j]? = some (b.loads d fp)[j] := getElem?_eq_getElem hj
  obtain ⟨a, ha, hr, hx⟩ := mem_loads.mp (mem_of_getElem? hmem)
  exact ⟨a, ha, hr, by rw [hget, hmem, hx]⟩

theorem code_get_offset (b : Patch) : (b.code d fp)[b.offset d fp]? = some b.body := by
  simp [code, offset]

theorem code_get_gt (hj : b.offset d fp < j) (hj' : j < (b.code d fp).length) :
    ∃ a ∈ b.standIns, a.reg ∈ b.instr.writes ∧
      (b.code d fp)[j]? = some (d.storeAt fp a.off (some a.temp)) := by
  have hk : j - b.offset d fp - 1 < (b.stores d fp).length := by
    rw [length_code] at hj'
    omega
  have hget : (b.code d fp)[j]? = (b.stores d fp)[j - b.offset d fp - 1]? := by
    show (b.loads d fp ++ b.body :: b.stores d fp)[j]? = _
    rw [getElem?_append_right (Nat.le_of_lt hj),
      show j - (b.loads d fp).length = (j - b.offset d fp - 1) + 1 by unfold offset at hj ⊢; omega,
      getElem?_cons_succ]
  have hmem := getElem?_eq_getElem hk
  obtain ⟨a, ha, hr, hx⟩ := mem_stores.mp (mem_of_getElem? hmem)
  exact ⟨a, ha, hr, by rw [hget, hmem, hx]⟩

/-- What stands at a place of a patched instruction. -/
theorem code_get_cases (hx : (b.code d fp)[j]? = some x) :
    (j < b.offset d fp ∧ ∃ a ∈ b.standIns, a.reg ∈ b.instr.reads ∧
        x = d.loadSlot fp a.off a.temp) ∨
      (j = b.offset d fp ∧ x = b.body) ∨
      (b.offset d fp < j ∧ ∃ a ∈ b.standIns, a.reg ∈ b.instr.writes ∧
        x = d.storeAt fp a.off (some a.temp)) := by
  rcases Nat.lt_trichotomy j (b.offset d fp) with hj | rfl | hj
  · obtain ⟨a, ha, hr, h⟩ := code_get_lt hj
    exact Or.inl ⟨hj, a, ha, hr, Option.some.inj (hx.symm.trans h)⟩
  · exact Or.inr (Or.inl ⟨rfl, Option.some.inj (hx.symm.trans (code_get_offset b))⟩)
  · obtain ⟨a, ha, hr, h⟩ := code_get_gt hj (List.getElem?_eq_some_iff.mp hx).1
    exact Or.inr (Or.inr ⟨hj, a, ha, hr, Option.some.inj (hx.symm.trans h)⟩)

theorem offset_eq_zero (h : b.instr.reads = []) : b.offset d fp = 0 := by
  simp [offset, loads, h]

/-! ### Where the patched instructions begin -/

variable (d fp) in
/-- The place where the code of a patched instruction begins. -/
def start (bs : List Patch) (i : Nat) : Nat := (codeAll d fp (bs.take i)).length

@[simp] theorem start_zero : start d fp bs 0 = 0 := rfl

theorem codeAll_append (as bs : List Patch) :
    codeAll d fp (as ++ bs) = codeAll d fp as ++ codeAll d fp bs := flatMap_append

variable (d fp) in
theorem start_succ (hb : bs[i]? = some b) :
    start d fp bs (i + 1) = start d fp bs i + (b.code d fp).length := by
  unfold start
  rw [take_add_one, hb, codeAll_append, length_append]
  simp [codeAll]

variable (d fp bs) in
theorem start_le_of_le (h : i ≤ j) : start d fp bs i ≤ start d fp bs j := by
  unfold start
  rw [← take_append_drop i (bs.take j), codeAll_append, length_append, take_take,
    Nat.min_eq_left h]
  exact Nat.le_add_right _ _

theorem codeAll_get (hb : bs[i]? = some b) (hj : j < (b.code d fp).length) :
    (codeAll d fp bs)[start d fp bs i + j]? = (b.code d fp)[j]? := by
  obtain ⟨hi, rfl⟩ := List.getElem?_eq_some_iff.mp hb
  have hbs : codeAll d fp bs =
      codeAll d fp (bs.take i) ++ (bs[i].code d fp ++ codeAll d fp (bs.drop (i + 1))) := by
    conv_lhs => rw [← take_append_drop i bs, drop_eq_getElem_cons hi, codeAll_append]
    rfl
  have hlen : (codeAll d fp (bs.take i)).length = start d fp bs i := rfl
  rw [hbs, getElem?_append_right (by omega), hlen, Nat.add_sub_cancel_left,
    getElem?_append_left hj]

theorem start_cons (b : Patch) (bs : List Patch) (i : Nat) :
    start d fp (b :: bs) (i + 1) = (b.code d fp).length + start d fp bs i := by
  show (codeAll d fp (b :: bs.take i)).length = _
  exact length_append

/-- Every place of the code belongs to a patched instruction. -/
theorem exists_start (hx : (codeAll d fp bs)[p]? = some x) : ∃ i b j, bs[i]? = some b ∧
    (b.code d fp)[j]? = some x ∧ p = start d fp bs i + j := by
  induction bs generalizing p with
  | nil => cases hx
  | cons b rest ih =>
    have hcons : codeAll d fp (b :: rest) = b.code d fp ++ codeAll d fp rest := rfl
    rw [hcons] at hx
    rcases Nat.lt_or_ge p (b.code d fp).length with hp | hp
    · rw [getElem?_append_left hp] at hx
      exact ⟨0, b, p, rfl, hx, by simp⟩
    · rw [getElem?_append_right hp] at hx
      obtain ⟨i, b', j, hb, hj, hpos⟩ := ih hx
      refine ⟨i + 1, b', j, hb, hj, ?_⟩
      rw [start_cons]
      omega

theorem start_inj (hb : bs[i]? = some b) (hj : j < (b.code d fp).length) (hb' : bs[i']? = some b')
    (hj' : j' < (b'.code d fp).length) (h : start d fp bs i + j = start d fp bs i' + j') :
    i = i' ∧ j = j' := by
  have h1 := start_succ d fp hb
  have h2 := start_succ d fp hb'
  rcases Nat.lt_trichotomy i i' with hi | rfl | hi
  · have := start_le_of_le d fp bs (show i + 1 ≤ i' from hi)
    omega
  · exact ⟨rfl, by omega⟩
  · have := start_le_of_le d fp bs (show i' + 1 ≤ i from hi)
    omega

theorem start_lt (hb : bs[i]? = some b) : start d fp bs i < (codeAll d fp bs).length := by
  have h0 : 0 < (b.code d fp).length := Nat.lt_of_le_of_lt (Nat.zero_le _) (offset_lt d fp b)
  have hget := codeAll_get hb h0
  rw [getElem?_eq_getElem h0] at hget
  simpa using (List.getElem?_eq_some_iff.mp hget).1

theorem start_eq_length (h : bs.length ≤ i) : start d fp bs i = (codeAll d fp bs).length := by
  rw [start, take_of_length_le h]

/-! ### Labels -/

theorem label_eq_none (hx : (b.code d fp)[j]? = some x) (hj : j ≠ b.offset d fp) :
    x.label = none := by
  rcases code_get_cases hx with ⟨-, a, -, -, rfl⟩ | ⟨h, -⟩ | ⟨-, a, -, -, rfl⟩
  · rfl
  · exact absurd h hj
  · rfl

theorem dests_eq_nil (hx : (b.code d fp)[j]? = some x) (hj : j ≠ b.offset d fp) : x.dests = [] := by
  rcases code_get_cases hx with ⟨-, a, -, -, rfl⟩ | ⟨h, -⟩ | ⟨-, a, -, -, rfl⟩
  · rfl
  · exact absurd h hj
  · rfl

/-- Labels are placed where the instructions with labels begin. -/
theorem placesAt_iff (hlab : ∀ b ∈ bs, b.instr.label ≠ none → b.instr.reads = []) {l : Label} :
    (codeAll d fp bs).PlacesAt l p ↔
      ∃ i, Code.PlacesAt (bs.map Patch.instr) l i ∧ p = start d fp bs i := by
  constructor
  · rintro ⟨x, hx, hl⟩
    obtain ⟨i, b, j, hb, hj, rfl⟩ := exists_start hx
    rcases code_get_cases hj with ⟨-, a, -, -, rfl⟩ | ⟨rfl, rfl⟩ | ⟨-, a, -, -, rfl⟩
    · cases hl
    · have hreads := hlab b (mem_of_getElem? hb) (by rw [show b.instr.label = some l from hl]; simp)
      exact ⟨i, ⟨b.instr, by simp [hb], hl⟩, by rw [offset_eq_zero hreads, Nat.add_zero]⟩
    · cases hl
  · rintro ⟨i, ⟨x, hx, hl⟩, rfl⟩
    rw [getElem?_map, Option.map_eq_some_iff] at hx
    obtain ⟨b, hb, rfl⟩ := hx
    have hreads := hlab b (mem_of_getElem? hb) (by rw [hl]; simp)
    have hget := codeAll_get hb (offset_lt d fp b)
    rw [code_get_offset, offset_eq_zero hreads, Nat.add_zero] at hget
    exact ⟨b.body, hget, hl⟩

theorem labels_codeAll (bs : List Patch) :
    (codeAll d fp bs).labels = Code.labels (bs.map Patch.instr) := by
  induction bs with
  | nil => rfl
  | cons b rest ih =>
    have hloads : (b.loads d fp).filterMap Instr.label = [] := by
      rw [filterMap_eq_nil_iff]
      intro x hx
      obtain ⟨a, -, -, rfl⟩ := mem_loads.mp hx
      rfl
    have hstores : (b.stores d fp).filterMap Instr.label = [] := by
      rw [filterMap_eq_nil_iff]
      intro x hx
      obtain ⟨a, -, -, rfl⟩ := mem_stores.mp hx
      rfl
    show ((b.loads d fp ++ b.body :: b.stores d fp) ++ codeAll d fp rest).filterMap Instr.label = _
    unfold Code.labels at ih ⊢
    rw [filterMap_append, filterMap_append, hloads, ih, map_cons, nil_append]
    have hbody : b.body.label = b.instr.label := rfl
    cases hl : b.instr.label with
    | none => simp [hbody, hl, hstores]
    | some l => simp [hbody, hl, hstores]

/-- Patched code is well labelled if the code before was. -/
theorem wellLabelled_codeAll (h : Code.WellLabelled (bs.map Patch.instr)) :
    (codeAll d fp bs).WellLabelled := by
  refine ⟨by rw [labels_codeAll]; exact h.nodup, fun x hx l hl => ?_⟩
  obtain ⟨b, hb, hx⟩ := mem_flatMap.mp hx
  rw [labels_codeAll]
  obtain ⟨j, hj⟩ := mem_iff_getElem?.mp hx
  rcases code_get_cases hj with ⟨-, a, -, -, rfl⟩ | ⟨-, rfl⟩ | ⟨-, a, -, -, rfl⟩
  · cases hl
  · exact h.placed b.instr (mem_map_of_mem hb) l hl
  · cases hl

end Codegen.Patch
