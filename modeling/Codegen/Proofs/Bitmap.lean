import Codegen.Bitmap.Basic
import Mathlib.Data.List.Basic

/-!
# Bitmaps as sets

`contains` is the view of a bitmap: what every operation does to it, and that the list of elements
lists just what it contains. The bits that are taken off a word one after the other are all of them
(`bitsOf_eq`).
-/

namespace Codegen.Bitmap

variable (s : Bitmap)

theorem toBitVec_mask (i : Nat) : (mask i).toBitVec = BitVec.twoPow 64 (i % 64) := by
  simp [mask, BitVec.twoPow]

/-- A word meets the mask of `i` exactly if its bit for `i` is set. -/
theorem and_mask_ne_zero (x : UInt64) (i : Nat) :
    (x &&& mask i != 0) = x.toBitVec.getLsbD (i % 64) := by
  have hi : i % 64 < 64 := Nat.mod_lt _ (by decide)
  have hpow : BitVec.twoPow 64 (i % 64) ≠ 0#64 := by
    intro h
    have := congrArg (fun b => b.getLsbD (i % 64)) h
    simp [hi] at this
  have hand : (x &&& mask i).toBitVec =
      if x.toBitVec.getLsbD (i % 64) then BitVec.twoPow 64 (i % 64) else 0#64 := by
    rw [UInt64.toBitVec_and, toBitVec_mask, BitVec.and_twoPow]
  rw [Bool.eq_iff_iff, bne_iff_ne]
  constructor
  · intro h
    by_contra hx
    rw [if_neg hx] at hand
    exact h (UInt64.toBitVec_inj.mp hand)
  · intro hx h
    rw [if_pos hx, h] at hand
    exact hpow hand.symm

theorem getLsbD_or_mask (x : UInt64) (i j : Nat) :
    (x ||| mask i).toBitVec.getLsbD (j % 64) =
      (x.toBitVec.getLsbD (j % 64) || decide (j % 64 = i % 64)) := by
  have hi : i % 64 < 64 := Nat.mod_lt _ (by decide)
  rw [UInt64.toBitVec_or, toBitVec_mask, BitVec.getLsbD_or, BitVec.getLsbD_twoPow]
  simp [hi, eq_comm]

theorem getLsbD_and_not_mask (x : UInt64) (i j : Nat) :
    (x &&& ~~~(mask i)).toBitVec.getLsbD (j % 64) =
      (x.toBitVec.getLsbD (j % 64) && decide (j % 64 ≠ i % 64)) := by
  have hi : i % 64 < 64 := Nat.mod_lt _ (by decide)
  have hj : j % 64 < 64 := Nat.mod_lt _ (by decide)
  rw [UInt64.toBitVec_and, UInt64.toBitVec_not, toBitVec_mask, BitVec.getLsbD_and,
    BitVec.getLsbD_not, BitVec.getLsbD_twoPow]
  simp [hi, hj, eq_comm]

theorem contains_eq (i : Nat) :
    s.contains i = (s.word (i / 64)).toBitVec.getLsbD (i % 64) := and_mask_ne_zero _ _

theorem word_grow (n w : Nat) : (s.grow n).word w = s.word w := by
  simp only [word, grow, Array.getD_eq_getD_getElem?, Array.getElem?_append]
  split
  · rfl
  · rename_i h
    rw [Array.getElem?_replicate, Array.getElem?_eq_none (by omega)]
    split <;> rfl

theorem size_words_grow (n : Nat) : n ≤ (s.grow n).words.size := by
  simp [grow]
  omega

theorem word_setWord {w : Nat} (x : UInt64) (v : Nat) (hw : w < s.words.size) :
    (s.setWord w x).word v = if v = w then x else s.word v := by
  simp only [word, setWord, Array.getD_eq_getD_getElem?, Array.getElem?_setIfInBounds]
  by_cases h : w = v
  · subst h
    simp [hw]
  · simp [h, Ne.symm h]

theorem word_insert (i w : Nat) :
    (s.insert i).word w = if w = i / 64 then s.word w ||| mask i else s.word w := by
  unfold insert
  rw [word_setWord _ _ _ (Nat.lt_of_succ_le (size_words_grow s (i / 64 + 1))), word_grow, word_grow]
  split
  · rename_i h; rw [h]
  · rfl

@[simp] theorem contains_insert (i j : Nat) :
    (s.insert i).contains j = (decide (j = i) || s.contains j) := by
  rw [contains_eq, contains_eq, word_insert]
  by_cases h : j / 64 = i / 64
  · rw [if_pos h, getLsbD_or_mask, Bool.or_comm]
    congr 1
    have : j % 64 = i % 64 ↔ j = i := by omega
    simp [this]
  · have hne : j ≠ i := by rintro rfl; exact h rfl
    simp [h, hne]

theorem word_ofWords (n w : Nat) : (ofWords n).word w = 0 := by
  simp only [word, ofWords, Array.getD_eq_getD_getElem?, Array.getElem?_replicate]
  split <;> rfl

@[simp] theorem contains_ofWords (n i : Nat) : (ofWords n).contains i = false := by
  rw [contains_eq, word_ofWords]
  simp

@[simp] theorem contains_withCapacity (n i : Nat) : (withCapacity n).contains i = false :=
  contains_ofWords _ i

@[simp] theorem contains_empty (i : Nat) : empty.contains i = false := by
  rw [contains_eq]
  simp [word, empty]

/-- The positions of the bits set in a word, each looked at in turn. -/
def setBits (x : UInt64) : List Nat := (List.range 64).filter fun b => x &&& mask b != 0

theorem mem_setBits {x : UInt64} {b : Nat} : b ∈ setBits x ↔ b < 64 ∧ x.toBitVec.getLsbD b := by
  rw [setBits, List.mem_filter, List.mem_range, and_mask_ne_zero]
  refine and_congr_right fun hb => ?_
  rw [Nat.mod_eq_of_lt hb]

theorem eq_zero_of_setBits {x : UInt64} (h : setBits x = []) : x = 0 := by
  refine UInt64.toBitVec_inj.mp (BitVec.eq_of_getLsbD_eq fun b hb => ?_)
  have hbit : ¬ b ∈ setBits x := h ▸ List.not_mem_nil
  rw [mem_setBits, not_and, Bool.not_eq_true] at hbit
  simpa using hbit hb

/-- One step of taking bits off: the first position goes, and the others stay. -/
theorem setBits_eq_cons {x : UInt64} (hx : x ≠ 0) :
    setBits x = lowestBit x :: setBits (x &&& ~~~(mask (lowestBit x))) := by
  obtain ⟨b, rest, hbits⟩ := List.exists_cons_of_ne_nil fun hnil => hx (eq_zero_of_setBits hnil)
  have hlow : lowestBit x = b := by
    rw [lowestBit, ← List.head?_filter, ← setBits, hbits]
    rfl
  have hb : b < 64 := (mem_setBits.mp (hbits ▸ List.mem_cons_self)).1
  have hcleared : setBits (x &&& ~~~(mask b)) = (b :: rest).filter (· ≠ b) := by
    rw [← hbits, setBits, setBits, List.filter_filter]
    refine List.filter_congr fun i hi => ?_
    have hi := List.mem_range.mp hi
    rw [and_mask_ne_zero, and_mask_ne_zero, getLsbD_and_not_mask, Bool.and_comm,
      Nat.mod_eq_of_lt hi, Nat.mod_eq_of_lt hb]
  have hout : b ∉ rest := (List.nodup_cons.mp (hbits ▸ List.nodup_range.filter _)).1
  rw [hlow, hcleared, hbits, List.filter_cons_of_neg (by simp), List.filter_eq_self.mpr]
  rintro i hi
  exact decide_eq_true fun hib : i = b => hout (hib ▸ hi)

theorem takeBits_eq {n : Nat} {x : UInt64} (h : (setBits x).length ≤ n) :
    takeBits n x = setBits x := by
  induction n generalizing x with
  | zero => exact (List.length_eq_zero_iff.mp (Nat.le_zero.mp h)).symm
  | succ n ih =>
    rw [takeBits]
    split
    · rename_i hx
      subst hx
      simp [setBits]
    · rename_i hx
      rw [setBits_eq_cons hx, List.length_cons] at h
      rw [setBits_eq_cons hx, ih (Nat.le_of_succ_le_succ h)]

/-- Taking bits off one after the other finds all of them. -/
theorem bitsOf_eq (x : UInt64) : bitsOf x = setBits x :=
  takeBits_eq (List.length_filter_le _ _)

theorem mem_bitsOf {x : UInt64} {b : Nat} : b ∈ bitsOf x ↔ b < 64 ∧ x.toBitVec.getLsbD b := by
  rw [bitsOf_eq, mem_setBits]

@[simp] theorem mem_toList {s : Bitmap} {i : Nat} : i ∈ s.toList ↔ s.contains i = true := by
  simp only [toList, List.mem_flatMap, List.mem_map, Prod.exists, List.mem_zipIdx_iff_getElem?]
  rw [contains_eq]
  constructor
  · rintro ⟨x, w, hx, b, hb, rfl⟩
    obtain ⟨hb64, hbit⟩ := mem_bitsOf.mp hb
    have hdiv : (64 * w + b) / 64 = w := by omega
    have hmod : (64 * w + b) % 64 = b := by omega
    have hword : s.word w = x := by
      rw [Array.getElem?_toList] at hx
      simp [word, Array.getD_eq_getD_getElem?, hx]
    rw [hdiv, hmod, hword]
    exact hbit
  · intro h
    have hlt : i / 64 < s.words.size := by
      by_contra hge
      rw [word, Array.getD_eq_getD_getElem?, Array.getElem?_eq_none (by omega)] at h
      simp at h
    refine ⟨s.word (i / 64), i / 64, ?_, i % 64, ?_, by omega⟩
    · rw [Array.getElem?_toList, word, Array.getD_eq_getD_getElem?, Array.getElem?_eq_getElem hlt]
      rfl
    · exact mem_bitsOf.mpr ⟨Nat.mod_lt _ (by decide), h⟩

theorem contains_foldl_insert (list : List Nat) (s : Bitmap) (i : Nat) :
    (list.foldl insert s).contains i = (decide (i ∈ list) || s.contains i) := by
  induction list generalizing s with
  | nil => simp
  | cons a rest ih =>
    rw [List.foldl_cons, ih, contains_insert]
    by_cases h1 : i ∈ rest <;> by_cases h2 : i = a <;> simp [h1, h2]

end Codegen.Bitmap
