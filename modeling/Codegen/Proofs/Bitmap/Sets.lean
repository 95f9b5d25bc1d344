import Codegen.Bitmap.Indexed
import Codegen.Proofs.Bitmap
import Mathlib.Data.Finset.Card
import Mathlib.Data.Finset.Lattice.Basic

/-!
# Bitmaps stand for finite sets

What the remaining operations do to membership, word by word, and that the elements are listed in
increasing order. Bitmaps that are kept under names and worked on by any operations stand for the
finite sets that the same operations on sets make (`runs_refine`).
-/

namespace Codegen.Bitmap

open List

variable {s t : Bitmap} {i j w : Nat}

/-! ### Membership after each operation -/

theorem word_of_le (h : s.words.size ≤ w) : s.word w = 0 := by
  rw [word, Array.getD_eq_getD_getElem?, Array.getElem?_eq_none h, Option.getD_none]

theorem word_erase (s : Bitmap) (i w : Nat) :
    (s.erase i).word w = if w = i / 64 then s.word w &&& ~~~(mask i) else s.word w := by
  unfold erase
  by_cases hi : i / 64 < s.words.size
  · rw [word_setWord _ _ _ hi]
    split
    · rename_i h
      rw [h]
    · rfl
  · -- there is no such word, and nothing to remove
    have hsame : s.setWord (i / 64) (s.word (i / 64) &&& ~~~(mask i)) = s := by
      rw [setWord, Array.setIfInBounds, dif_neg hi]
    rw [hsame]
    split
    · rename_i h
      rw [h, word_of_le (Nat.not_lt.mp hi), UInt64.zero_and]
    · rfl

@[simp] theorem contains_erase (s : Bitmap) (i j : Nat) :
    (s.erase i).contains j = (decide (j ≠ i) && s.contains j) := by
  rw [contains_eq, contains_eq, word_erase]
  by_cases h : j / 64 = i / 64
  · have hne : j % 64 = i % 64 ↔ j = i := by omega
    rw [if_pos h, getLsbD_and_not_mask, Bool.and_comm]
    simp [hne]
  · have hne : j ≠ i := by
      rintro rfl
      exact h rfl
    simp [h, hne]

@[simp] theorem contains_clear (s : Bitmap) (i : Nat) : s.clear.contains i = false := by
  have hword : s.clear.word (i / 64) = 0 := by
    rw [word, clear, Array.getD_eq_getD_getElem?, Array.getElem?_map]
    cases s.words[i / 64]? <;> rfl
  rw [contains_eq, hword]
  simp

theorem word_union (s t : Bitmap) (w : Nat) : (s.union t).word w = s.word w ||| t.word w := by
  have hmap : (s.union t).word w =
      ((s.grow t.words.size).words[w]?.map fun x => x ||| t.word w).getD 0 := by
    rw [word, union, Array.getD_eq_getD_getElem?, Array.getElem?_mapIdx]
  have hword : s.word w = (s.grow t.words.size).words[w]?.getD 0 := by
    rw [← word_grow s t.words.size, word, Array.getD_eq_getD_getElem?]
  rw [hmap, hword]
  cases h : (s.grow t.words.size).words[w]? with
  | some x => rfl
  | none =>
    have hle := Array.getElem?_eq_none_iff.mp h
    rw [word_of_le (Nat.le_trans (size_words_grow s _) hle)]
    rfl

@[simp] theorem contains_union (s t : Bitmap) (i : Nat) :
    (s.union t).contains i = (s.contains i || t.contains i) := by
  rw [contains_eq, contains_eq, contains_eq, word_union, UInt64.toBitVec_or, BitVec.getLsbD_or]

/-- A word of `s` takes up something new of `t` if it has an element of `t` that `s` has not. -/
theorem or_word_ne : (s.word w ||| t.word w != s.word w) = true ↔
    ∃ i, i / 64 = w ∧ t.contains i = true ∧ s.contains i = false := by
  have hbits : s.word w ||| t.word w = s.word w ↔
      ∀ b < 64, (t.word w).toBitVec.getLsbD b = true → (s.word w).toBitVec.getLsbD b = true := by
    rw [← UInt64.toBitVec_inj, UInt64.toBitVec_or]
    constructor
    · intro h b _ hb
      rw [← h, BitVec.getLsbD_or, hb, Bool.or_true]
    · intro h
      refine BitVec.eq_of_getLsbD_eq fun b hb => ?_
      rw [BitVec.getLsbD_or, Bool.or_eq_left_iff_imp]
      exact h b hb
  rw [bne_iff_ne, ne_eq, hbits]
  simp only [not_forall]
  constructor
  · rintro ⟨b, hb, ht, hs⟩
    have hdiv : (64 * w + b) / 64 = w := by omega
    have hmod : (64 * w + b) % 64 = b := by omega
    refine ⟨64 * w + b, hdiv, ?_, ?_⟩
    · rwa [contains_eq, hdiv, hmod]
    · rwa [contains_eq, hdiv, hmod, Bool.eq_false_iff]
  · rintro ⟨i, rfl, ht, hs⟩
    rw [contains_eq] at ht hs
    exact ⟨i % 64, Nat.mod_lt _ (by decide), ht, by rw [hs]; exact Bool.false_ne_true⟩

theorem lacksSome_iff : s.lacksSome t = true ↔ ∃ i, t.contains i = true ∧ s.contains i = false := by
  simp only [lacksSome, any_eq_true, mem_range, or_word_ne]
  constructor
  · rintro ⟨w, -, i, -, h⟩
    exact ⟨i, h⟩
  · rintro ⟨i, ht, hs⟩
    refine ⟨i / 64, ?_, i, rfl, ht, hs⟩
    by_contra hle
    rw [contains_eq, word_of_le (Nat.not_lt.mp hle)] at ht
    simp at ht

/-! ### The elements in order -/

/-- The elements are listed in increasing order, so each is listed once. -/
theorem pairwise_toList (s : Bitmap) : s.toList.Pairwise (· < ·) := by
  rw [toList, pairwise_flatMap]
  constructor
  · rintro ⟨x, w⟩ -
    rw [pairwise_map, bitsOf_eq, setBits]
    exact (pairwise_lt_range.filter _).imp fun h => Nat.add_lt_add_left h _
  · have hwords : (s.words.toList.zipIdx).Pairwise fun p q => p.2 < q.2 := by
      rw [← pairwise_map (f := Prod.snd) (R := (· < ·)), zipIdx_map_snd]
      exact pairwise_lt_range'
    refine hwords.imp ?_
    rintro ⟨x, v⟩ ⟨y, w⟩ hvw a ha b hb
    obtain ⟨a', ha', rfl⟩ := mem_map.mp ha
    obtain ⟨b', -, rfl⟩ := mem_map.mp hb
    have hlt := (mem_bitsOf.mp ha').1
    dsimp only at hvw ⊢
    omega

theorem size_eq_length (s : Bitmap) : s.size = s.toList.length := by
  have hwords : ∀ (l : List UInt64) (w n : Nat),
      l.foldl (fun n x => n + (bitsOf x).length) n =
        n + ((l.zipIdx w).flatMap fun p => (bitsOf p.1).map (64 * p.2 + ·)).length := by
    intro l
    induction l with
    | nil => exact fun _ _ => rfl
    | cons x l ih =>
      intro w n
      rw [foldl_cons, ih (w + 1), zipIdx_cons, flatMap_cons, length_append, length_map, Nat.add_assoc]
  rw [size, ← Array.foldl_toList, hwords _ 0, Nat.zero_add]
  rfl

theorem toFinset_toList {a : Finset Nat} (h : ∀ i, s.contains i = true ↔ i ∈ a) :
    s.toList.toFinset = a := by
  ext i
  rw [mem_toFinset, mem_toList, h]

/-- A list is visited from its begin up to the first element that is refused: all that was visited
before the last one was accepted, and what was not visited came behind a refusal. -/
structure Visits (continues : Nat → Nat → Bool) (list visited : List Nat) : Prop where
  begin : visited <+: list
  accepted : ∀ k i, visited[k]? = some i → k + 1 < visited.length → continues (k + 1) i = true
  refused : visited = list ∨ ∃ i, visited.getLast? = some i ∧ continues visited.length i = false

theorem visits_go (continues : Nat → Nat → Bool) (seen : Nat) (list : List Nat) :
    Visits (fun n => continues (seen + n)) list (visit.go continues seen list) := by
  induction list generalizing seen with
  | nil => exact ⟨prefix_rfl, nofun, Or.inl rfl⟩
  | cons a list ih =>
    rw [visit.go]
    split
    · rename_i ha
      obtain ⟨hbegin, haccepted, hrefused⟩ := ih (seen + 1)
      refine ⟨cons_prefix_cons.mpr ⟨rfl, hbegin⟩, fun k i hk hlt => ?_, ?_⟩
      · cases k with
        | zero =>
          cases hk
          exact ha
        | succ k =>
          have h := haccepted k i hk (Nat.lt_of_succ_lt_succ hlt)
          rwa [Nat.add_assoc, Nat.add_comm 1] at h
      · rcases hrefused with h | ⟨i, hlast, hi⟩
        · exact Or.inl (congrArg _ h)
        · refine Or.inr ⟨i, by rw [getLast?_cons, hlast, Option.getD_some], ?_⟩
          rwa [Nat.add_assoc, Nat.add_comm 1] at hi
    · rename_i ha
      refine ⟨cons_prefix_cons.mpr ⟨rfl, nil_prefix⟩, fun k i _ hlt => ?_, Or.inr ⟨a, rfl, ?_⟩⟩
      · exact absurd hlt (by simp)
      · exact Bool.eq_false_iff.mpr ha

theorem visits_visit (continues : Nat → Nat → Bool) (s : Bitmap) :
    Visits continues s.toList (s.visit continues) := by
  have h := visits_go continues 0 s.toList
  simp only [Nat.zero_add] at h
  exact h

/-! ### Indices that are not negative -/

theorem insertAt_natCast (s : Bitmap) (i : Nat) : s.insertAt i = (s.insert i, true) := by
  rw [insertAt, if_pos (Int.natCast_nonneg i), Int.toNat_natCast]

theorem eraseAt?_natCast (s : Bitmap) (i : Nat) : s.eraseAt? i = some (s.erase i) := by
  rw [eraseAt?, if_pos (Int.natCast_nonneg i), Int.toNat_natCast]

theorem containsAt?_natCast (s : Bitmap) (i : Nat) : s.containsAt? i = some (s.contains i) := by
  rw [containsAt?, if_pos (Int.natCast_nonneg i), Int.toNat_natCast]

/-- There is room for a capacity that is not negative, unless it is out of reach. -/
theorem withCapacity?_eq_some {n : Int64} (h0 : 0 ≤ n.toInt) (hn : n.toInt ≤ 64 * maxWords) :
    withCapacity? n = some (withCapacity n.toInt.toNat) := by
  have hmax : maxWords = 35184372088832 := by decide
  have hsum : (n + 63).toInt = n.toInt + 63 := by
    rw [Int64.toInt_add]
    exact Int.bmod_eq_of_le (by simp; omega) (by simp; omega)
  have hwords : ((n + 63) / 64).toInt = (n.toInt + 63) / 64 := by
    rw [Int64.toInt_div, hsum, Int.tdiv_eq_ediv_of_nonneg (by omega)]
    exact Int.bmod_eq_of_le (by simp; omega) (by simp; omega)
  have hroom : (0 ≤ (n.toInt + 63) / 64 && (n.toInt + 63) / 64 ≤ maxWords) = true := by
    simp only [Bool.and_eq_true, decide_eq_true_eq]
    omega
  rw [withCapacity?, hwords, if_pos hroom, withCapacity]
  congr 2
  omega

/-! ### Operations on bitmaps and on sets -/

/-- An operation on bitmaps that are kept under names. -/
inductive Operation
  /-- An empty one, with room for some elements. -/
  | make (x : Nat) (n : Int64)
  | insert (x i : Nat)
  | erase (x i : Nat)
  /-- Add the elements of the second one to the first. -/
  | union (x y : Nat)
  | clear (x : Nat)

/-- What becomes of the bitmaps, unless the operation is refused. -/
def Operation.run? (σ : Nat → Bitmap) : Operation → Option (Nat → Bitmap)
  | make x n => (withCapacity? n).map (Function.update σ x)
  | insert x i =>
    let (s, done) := (σ x).insertAt i
    if done then some (Function.update σ x s) else none
  | erase x i => ((σ x).eraseAt? i).map (Function.update σ x)
  | union x y => some (Function.update σ x ((σ x).unionReport (σ y)).2)
  | clear x => some (Function.update σ x (σ x).clear)

/-- The same on finite sets, for which there is always room. -/
def Operation.apply (τ : Nat → Finset Nat) : Operation → Nat → Finset Nat
  | make x _ => Function.update τ x ∅
  | insert x i => Function.update τ x (Insert.insert i (τ x))
  | erase x i => Function.update τ x ((τ x).erase i)
  | union x y => Function.update τ x (τ x ∪ τ y)
  | clear x => Function.update τ x ∅

/-- The bitmaps have just the elements of the sets. -/
def Represents (σ : Nat → Bitmap) (τ : Nat → Finset Nat) : Prop :=
  ∀ x i, (σ x).contains i = true ↔ i ∈ τ x

section Run

variable {σ σ' : Nat → Bitmap} {τ : Nat → Finset Nat} {op : Operation} {ops : List Operation}

theorem Represents.update (h : Represents σ τ) (x : Nat) {s : Bitmap} {a : Finset Nat}
    (hs : ∀ i, s.contains i = true ↔ i ∈ a) :
    Represents (Function.update σ x s) (Function.update τ x a) := by
  intro y i
  by_cases hy : y = x
  · subst hy
    rw [Function.update_self, Function.update_self, hs]
  · rw [Function.update_of_ne hy, Function.update_of_ne hy, h]

theorem not_contains_of_withCapacity? {n : Int64} (hs : withCapacity? n = some s) :
    ¬ s.contains i = true := by
  dsimp only [withCapacity?] at hs
  split at hs
  · cases hs
    rw [contains_ofWords]
    exact Bool.false_ne_true
  · cases hs

theorem Represents.run (h : Represents σ τ) (hrun : op.run? σ = some σ') :
    Represents σ' (op.apply τ) := by
  cases op with
  | make x n =>
    obtain ⟨s, hs, rfl⟩ := Option.map_eq_some_iff.mp hrun
    exact h.update x fun i => by simp [not_contains_of_withCapacity? hs]
  | insert x i =>
    rw [Operation.run?, insertAt_natCast] at hrun
    cases hrun
    exact h.update x fun j => by simp [h x j]
  | erase x i =>
    rw [Operation.run?, eraseAt?_natCast] at hrun
    cases hrun
    exact h.update x fun j => by simp [h x j]
  | union x y =>
    cases hrun
    exact h.update x fun i => by simp [unionReport, h x i, h y i]
  | clear x =>
    cases hrun
    exact h.update x fun i => by simp

theorem Represents.runAll (h : Represents σ τ) (hrun : ops.foldlM Operation.run? σ = some σ') :
    Represents σ' (ops.foldl Operation.apply τ) := by
  induction ops generalizing σ τ with
  | nil =>
    cases hrun
    exact h
  | cons op ops ih =>
    rw [foldlM_cons] at hrun
    obtain ⟨σ₁, hop, hrest⟩ := Option.bind_eq_some_iff.mp hrun
    exact ih (h.run hop) hrest

/-- Only an operation that makes a bitmap can be refused. -/
theorem Operation.exists_run?
    (h : ∀ x n, op = .make x n → 0 ≤ n.toInt ∧ n.toInt ≤ 64 * maxWords) : ∃ σ', op.run? σ = some σ' := by
  cases op with
  | make x n =>
    obtain ⟨h0, hn⟩ := h x n rfl
    rw [run?, withCapacity?_eq_some h0 hn]
    exact ⟨_, rfl⟩
  | insert x i =>
    rw [run?, insertAt_natCast]
    exact ⟨_, rfl⟩
  | erase x i =>
    rw [run?, eraseAt?_natCast]
    exact ⟨_, rfl⟩
  | union x y => exact ⟨_, rfl⟩
  | clear x => exact ⟨_, rfl⟩

theorem exists_runAll
    (h : ∀ x n, .make x n ∈ ops → 0 ≤ n.toInt ∧ n.toInt ≤ 64 * maxWords) :
    ∃ σ', ops.foldlM Operation.run? σ = some σ' := by
  induction ops generalizing σ with
  | nil => exact ⟨σ, rfl⟩
  | cons op ops ih =>
    obtain ⟨σ₁, hop⟩ := Operation.exists_run? (σ := σ) fun x n hop => h x n (hop ▸ mem_cons_self)
    obtain ⟨σ', hrest⟩ := ih (σ := σ₁) fun x n hmem => h x n (mem_cons_of_mem _ hmem)
    refine ⟨σ', ?_⟩
    rw [foldlM_cons, hop]
    exact hrest

end Run

/-- **Bitmaps are finite sets.** Operations on bitmaps that were empty can be done one after the other
if there is room for the capacities they ask for. After them each bitmap has just the elements that
the same operations give to sets, as many as it says, and visits them in increasing order until one is
refused. Adding the elements of another one reports whether there was a new one, and leaves the other
one alone. -/
theorem runs_refine (ops : List Operation) :
    ((∀ x n, .make x n ∈ ops → 0 ≤ n.toInt ∧ n.toInt ≤ 64 * maxWords) →
      ∃ σ, ops.foldlM Operation.run? (fun _ => .empty) = some σ) ∧
    ∀ σ, ops.foldlM Operation.run? (fun _ => .empty) = some σ → ∀ x,
      let τ := ops.foldl Operation.apply fun _ => ∅
      (∀ i : Nat, (σ x).containsAt? i = some (decide (i ∈ τ x))) ∧ (σ x).size = (τ x).card ∧
      (∀ y, (((σ x).unionReport (σ y)).1 = true ↔ τ x ⊂ (Operation.union x y).apply τ x) ∧
        ∀ σ', (Operation.union x y).run? σ = some σ' → y ≠ x → σ' y = σ y) ∧
      ∃ elements : List Nat, elements.Pairwise (· < ·) ∧ elements.toFinset = τ x ∧
        ∀ continues, Visits continues elements ((σ x).visit continues) := by
  refine ⟨exists_runAll, fun σ hrun x => ?_⟩
  intro τ
  have h : Represents σ τ := Represents.runAll (fun _ i => by simp) hrun
  have hlist := toFinset_toList (h x)
  refine ⟨fun i => ?_, ?_, fun y => ⟨?_, ?_⟩,
    (σ x).toList, pairwise_toList _, hlist, fun continues => visits_visit continues (σ x)⟩
  · rw [containsAt?_natCast, Option.some_inj, Bool.eq_iff_iff, decide_eq_true_iff, h]
  · rw [size_eq_length, ← hlist, toFinset_card_of_nodup ((pairwise_toList _).imp Nat.ne_of_lt)]
  · rw [unionReport, lacksSome_iff, Operation.apply, Function.update_self, Finset.ssubset_def,
      and_iff_right Finset.subset_union_left, Finset.not_subset]
    constructor
    · rintro ⟨i, hy, hx⟩
      refine ⟨i, Finset.mem_union_right _ ((h y i).mp hy), fun hi => ?_⟩
      rw [(h x i).mpr hi] at hx
      cases hx
    · rintro ⟨i, hi, hx⟩
      have hy := (Finset.mem_union.mp hi).resolve_left hx
      exact ⟨i, (h y i).mpr hy, Bool.eq_false_iff.mpr fun hc => hx ((h x i).mp hc)⟩
  · rintro σ' hσ' hy
    cases hσ'
    exact Function.update_of_ne hy _ _

end Codegen.Bitmap
