import Codegen.Flow
import Codegen.Proofs.Except
import Mathlib.Algebra.Order.Sub.Basic
import Mathlib.Data.List.Nodup
import Mathlib.Data.Nat.SuccPred

/-!
# Flow graphs and code

`Code.Follows` says which instruction may come after which by looking at the code alone. A flow
graph is built exactly if every label is placed at most once and every destination is placed
(`ofCode_isOk_iff`), and the error tells else which is not (`ofCode_error`); its edges are those of
`Follows` (`mem_succOf`, `mem_predOf`). `ofCode_exact` puts this together.
-/

namespace Codegen

open List

variable {placed : List (Label × Nat)} {code : Code}

/-- The labels that code places, in order. -/
def Code.labels (code : Code) : List Label := code.filterMap Instr.label

/-- Instruction `j` places the label. -/
def Code.PlacesAt (code : Code) (l : Label) (j : Nat) : Prop :=
  ∃ y, code[j]? = some y ∧ y.label = some l

/-- Control may go from instruction `i` to instruction `j`. -/
def Code.Follows (code : Code) (i j : Nat) : Prop :=
  ∃ x, code[i]? = some x ∧
    ((x.fallsThrough = true ∧ j = i + 1 ∧ j < code.length) ∨
      ∃ l, some l ∈ x.dests ∧ code.PlacesAt l j)

/-- Every label is placed at most once, and every destination is placed. -/
structure Code.WellLabelled (code : Code) : Prop where
  nodup : code.labels.Nodup
  placed : ∀ x ∈ code, ∀ l ∈ x.dests, ∃ l', l = some l' ∧ l' ∈ code.labels

theorem Code.Follows.lt_right {i j : Nat} (h : code.Follows i j) : j < code.length := by
  obtain ⟨x, -, ⟨-, -, h⟩ | ⟨l, -, y, hy, -⟩⟩ := h
  · exact h
  · exact (List.getElem?_eq_some_iff.mp hy).1

theorem Code.Follows.lt_left {i j : Nat} (h : code.Follows i j) : i < code.length := by
  obtain ⟨x, hx, -⟩ := h
  exact (List.getElem?_eq_some_iff.mp hx).1

theorem Code.mem_labels {l : Label} : l ∈ code.labels ↔ ∃ j, code.PlacesAt l j := by
  simp only [Code.labels, mem_filterMap, Code.PlacesAt]
  constructor
  · rintro ⟨x, hx, hl⟩
    obtain ⟨j, hj⟩ := mem_iff_getElem?.mp hx
    exact ⟨j, x, hj, hl⟩
  · rintro ⟨j, y, hy, hl⟩
    exact ⟨y, mem_of_getElem? hy, hl⟩

namespace Flow

/-! ### Adding to a list what is new -/

theorem mem_insertNew {list : List Nat} {i j : Nat} :
    j ∈ insertNew list i ↔ j ∈ list ∨ j = i := by
  unfold insertNew
  split
  · rename_i h
    have hi : i ∈ list := by simpa using h
    constructor
    · exact Or.inl
    · rintro (h | rfl)
      · exact h
      · exact hi
  · simp

theorem nodup_insertNew {list : List Nat} {i : Nat} (h : list.Nodup) :
    (insertNew list i).Nodup := by
  unfold insertNew
  split
  · exact h
  · rename_i hi
    refine nodup_append'.mpr ⟨h, by simp, ?_⟩
    simpa using hi

theorem mem_foldl_insertNew {list acc : List Nat} {j : Nat} :
    j ∈ list.foldl insertNew acc ↔ j ∈ acc ∨ j ∈ list := by
  induction list generalizing acc with
  | nil => simp
  | cons a rest ih => rw [foldl_cons, ih, mem_insertNew, mem_cons, or_assoc]

theorem nodup_foldl_insertNew {list acc : List Nat} (h : acc.Nodup) :
    (list.foldl insertNew acc).Nodup := by
  induction list generalizing acc with
  | nil => exact h
  | cons a rest ih => exact ih (nodup_insertNew h)

/-! ### Places of labels -/

/-- The list of places answers for the first part of some code. -/
def Answers (placed : List (Label × Nat)) (code : Code) : Prop :=
  ∀ l j, placed.lookup l = some j ↔ code.PlacesAt l j

theorem placesAt_concat {x : Instr} {l : Label} {j : Nat} :
    Code.PlacesAt (code ++ [x]) l j ↔ code.PlacesAt l j ∨ j = code.length ∧ x.label = some l := by
  unfold Code.PlacesAt
  constructor
  · rintro ⟨y, hy, hl⟩
    rcases Nat.lt_or_ge j code.length with h | h
    · rw [getElem?_append_left h] at hy
      exact Or.inl ⟨y, hy, hl⟩
    · rw [getElem?_append_right h, getElem?_singleton] at hy
      split at hy
      · cases hy
        exact Or.inr ⟨by omega, hl⟩
      · cases hy
  · rintro (⟨y, hy, hl⟩ | ⟨rfl, hl⟩)
    · exact ⟨y, getElem?_append_left (List.getElem?_eq_some_iff.mp hy).1 ▸ hy, hl⟩
    · exact ⟨x, by simp, hl⟩

theorem Answers.skip {x : Instr}
    (h : Answers placed code) (hx : x.label = none) : Answers placed (code ++ [x]) := by
  intro l j
  rw [h l j, placesAt_concat, hx]
  simp

theorem Answers.place {x : Instr} {l : Label}
    (h : Answers placed code) (hx : x.label = some l) (hl : placed.lookup l = none) :
    Answers (placed ++ [(l, code.length)]) (code ++ [x]) := by
  intro l' j
  rw [placesAt_concat, ← h l' j, hx, lookup_append]
  by_cases hll : l' = l
  · subst hll
    simp [hl, eq_comm]
  · have hb : (l' == l) = false := by simpa using hll
    simp [lookup_cons, hb, Ne.symm hll]

theorem Answers.lookup_eq_none
    (h : Answers placed code) {l : Label} : placed.lookup l = none ↔ l ∉ code.labels := by
  rw [Code.mem_labels, Option.eq_none_iff_forall_ne_some]
  simp only [ne_eq, h l, not_exists]

/-- Labels are placed once in `first ++ rest` exactly if `placesFrom` gets through `rest`. -/
theorem placesFrom_spec {first : Code} (rest : Code)
    (h : Answers placed first) (hn : first.labels.Nodup) :
    (∀ p, placesFrom placed first.length rest = .ok p →
      Answers p (first ++ rest) ∧ (Code.labels (first ++ rest)).Nodup) ∧
    ((Code.labels (first ++ rest)).Nodup → ∃ p, placesFrom placed first.length rest = .ok p) := by
  induction rest generalizing placed first with
  | nil =>
    refine ⟨fun p hp => ?_, fun _ => ⟨placed, rfl⟩⟩
    cases hp
    simpa using ⟨h, hn⟩
  | cons x rest ih =>
    have hsplit : first ++ x :: rest = (first ++ [x]) ++ rest := by simp
    have hlen : first.length + 1 = (first ++ [x]).length := by simp
    rw [hsplit]
    unfold placesFrom
    cases hx : x.label with
    | none =>
      have hn' : (Code.labels (first ++ [x])).Nodup := by
        simpa [Code.labels, hx] using hn
      simp only [hlen]
      exact ih (h.skip hx) hn'
    | some l =>
      have hlab : Code.labels (first ++ [x]) = first.labels ++ [l] := by
        simp [Code.labels, hx]
      simp only
      cases hl : placed.lookup l with
      | some j =>
        have hmem : l ∈ first.labels := Code.mem_labels.mpr ⟨j, (h l j).mp hl⟩
        refine ⟨fun p hp => (nomatch hp), fun hnd => ?_⟩
        rw [Code.labels, filterMap_append] at hnd
        have hnd' : (first.labels ++ [l]).Nodup := hlab ▸ (nodup_append'.mp hnd).1
        exact absurd (by simp) ((nodup_append'.mp hnd').2.2 hmem)
      | none =>
        have hn' : (Code.labels (first ++ [x])).Nodup := by
          rw [hlab]
          exact nodup_append'.mpr ⟨hn, by simp, by simpa using h.lookup_eq_none.mp hl⟩
        simp only [hlen]
        exact ih (h.place hx hl) hn'

theorem places_spec (code : Code) :
    (∀ p, places code = .ok p → Answers p code ∧ code.labels.Nodup) ∧
    (code.labels.Nodup → ∃ p, places code = .ok p) := by
  have h0 : Answers [] [] := by
    intro l j
    simp [Code.PlacesAt]
  exact placesFrom_spec code h0 (by simp [Code.labels])

/-! ### Successors -/

variable {placed : List (Label × Nat)} {code : Code}

/-- The destinations are found exactly if each is placed; they are then the places. -/
theorem destsOf_eq_ok_iff (h : Answers placed code) {i : Nat} {x : Instr} {js : List Nat} :
    destsOf placed i x = .ok js ↔
      List.Forall₂ (fun d j => ∃ l, d = some l ∧ code.PlacesAt l j) x.dests js := by
  rw [destsOf, mapM_eq_ok_iff]
  refine ⟨fun hjs => hjs.imp fun d j hd => ?_, fun hjs => hjs.imp fun d j hd => ?_⟩
  · cases d with
    | none => cases hd
    | some l =>
      refine ⟨l, rfl, (h l j).mp ?_⟩
      cases hl : placed.lookup l <;> simp_all
  · obtain ⟨l, rfl, hj⟩ := hd
    rw [Option.bind_some, (h l j).mpr hj]

theorem destsOf_spec (h : Answers placed code) (i : Nat) (x : Instr) :
    (∀ js, destsOf placed i x = .ok js →
      (∀ l ∈ x.dests, ∃ l', l = some l' ∧ l' ∈ code.labels) ∧
      ∀ j, j ∈ js ↔ ∃ l, some l ∈ x.dests ∧ code.PlacesAt l j) ∧
    ((∀ l ∈ x.dests, ∃ l', l = some l' ∧ l' ∈ code.labels) → ∃ js, destsOf placed i x = .ok js) := by
  have hplaced : (∀ l ∈ x.dests, ∃ l', l = some l' ∧ l' ∈ code.labels) ↔
      ∃ js, destsOf placed i x = .ok js := by
    simp only [destsOf_eq_ok_iff h, exists_forall₂_iff, Code.mem_labels]
    refine forall₂_congr fun d _ => ⟨?_, ?_⟩
    · rintro ⟨l, hd, j, hj⟩
      exact ⟨j, l, hd, hj⟩
    · rintro ⟨j, l, hd, hj⟩
      exact ⟨l, hd, j, hj⟩
  refine ⟨fun js hjs => ⟨hplaced.mpr ⟨js, hjs⟩, fun j => ?_⟩, hplaced.mp⟩
  rw [destsOf_eq_ok_iff h] at hjs
  constructor
  · intro hj
    obtain ⟨_, hd, l, rfl, hl⟩ := exists_mem_of_forall₂ hjs hj
    exact ⟨l, hd, hl⟩
  · rintro ⟨l, hd, hl⟩
    obtain ⟨j', hj', _, ⟨⟩, hl'⟩ := exists_mem_of_forall₂ hjs.flip hd
    have hsame := (h l j).mpr hl
    rw [(h l j').mpr hl'] at hsame
    cases hsame
    exact hj'

theorem succsOf_spec (h : Answers placed code) (n i : Nat) (x : Instr) :
    (∀ js, succsOf placed n i x = .ok js →
      (∀ l ∈ x.dests, ∃ l', l = some l' ∧ l' ∈ code.labels) ∧ js.Nodup ∧
      ∀ j, j ∈ js ↔ (x.fallsThrough = true ∧ j = i + 1 ∧ j < n) ∨
        ∃ l, some l ∈ x.dests ∧ code.PlacesAt l j) ∧
    ((∀ l ∈ x.dests, ∃ l', l = some l' ∧ l' ∈ code.labels) →
      ∃ js, succsOf placed n i x = .ok js) := by
  obtain ⟨h1, h2⟩ := destsOf_spec h i x
  unfold succsOf
  refine ⟨fun js hjs => ?_, fun hall => ?_⟩
  · obtain ⟨ds, hds, ⟨⟩⟩ := bind_eq_ok_iff.mp hjs
    obtain ⟨hp, hm⟩ := h1 ds hds
    refine ⟨hp, nodup_foldl_insertNew nodup_nil, fun j => ?_⟩
    rw [mem_foldl_insertNew, mem_append, hm j]
    by_cases hf : (x.fallsThrough && decide (i + 1 < n)) = true
    · rw [if_pos hf]
      obtain ⟨hf1, hf2⟩ : x.fallsThrough = true ∧ i + 1 < n := by simpa using hf
      simp only [not_mem_nil, mem_singleton, false_or, hf1, true_and]
      constructor
      · rintro (rfl | h)
        · exact Or.inl ⟨rfl, hf2⟩
        · exact Or.inr h
      · rintro (⟨h, -⟩ | h)
        · exact Or.inl h
        · exact Or.inr h
    · rw [if_neg hf]
      simp only [not_mem_nil, false_or]
      constructor
      · exact Or.inr
      · rintro (⟨hf1, rfl, hf2⟩ | h)
        · exact absurd (by simp [hf1, hf2]) hf
        · exact h
  · obtain ⟨ds, hds⟩ := h2 hall
    exact ⟨_, by rw [hds]; rfl⟩

theorem succsFrom_spec (h : Answers placed code) (n i : Nat) (rest : Code) :
    (∀ ss, succsFrom placed n i rest = .ok ss →
      ss.length = rest.length ∧
      ∀ j x, rest[j]? = some x → ∃ js, ss[j]? = some js ∧ succsOf placed n (i + j) x = .ok js) ∧
    ((∀ x ∈ rest, ∀ l ∈ x.dests, ∃ l', l = some l' ∧ l' ∈ code.labels) →
      ∃ ss, succsFrom placed n i rest = .ok ss) := by
  induction rest generalizing i with
  | nil => exact ⟨fun ss hss => by cases hss; simp, fun _ => ⟨[], rfl⟩⟩
  | cons x rest ih =>
    obtain ⟨ih1, ih2⟩ := ih (i + 1)
    unfold succsFrom
    refine ⟨fun ss hss => ?_, fun hall => ?_⟩
    · simp only [bind_eq_ok_iff] at hss
      obtain ⟨js, hjs, ss', hss', ⟨⟩⟩ := hss
      obtain ⟨hlen, hget⟩ := ih1 ss' hss'
      refine ⟨by simp [hlen], fun j y hy => ?_⟩
      cases j with
      | zero =>
        cases hy
        exact ⟨js, rfl, by simpa using hjs⟩
      | succ j =>
        obtain ⟨js', h1, h2⟩ := hget j y (by simpa using hy)
        exact ⟨js', by simpa using h1, by rw [← h2]; congr 1; omega⟩
    · obtain ⟨js, hjs⟩ := (succsOf_spec h n i x).2 (hall x (by simp))
      obtain ⟨ss', hss'⟩ := ih2 fun y hy => hall y (by simp [hy])
      exact ⟨js :: ss', by rw [hjs, hss']; rfl⟩

/-! ### The graph -/

variable {g : Flow}

theorem ofCode_eq_ok (hg : ofCode code = .ok g) :
    ∃ placed ss, places code = .ok placed ∧ succsFrom placed code.length 0 code = .ok ss ∧
      g.succ = ss.toArray ∧ g.pred = Array.ofFn fun j : Fin ss.toArray.size => predsOf ss.toArray j := by
  simp only [ofCode, bind_eq_ok_iff] at hg
  obtain ⟨placed, hplaced, ss, hss, ⟨⟩⟩ := hg
  exact ⟨placed, ss, hplaced, hss, rfl, rfl⟩

/-- A flow graph is built exactly of well-labelled code. -/
theorem ofCode_isOk_iff : (∃ g, ofCode code = .ok g) ↔ code.WellLabelled := by
  obtain ⟨hp1, hp2⟩ := places_spec code
  constructor
  · rintro ⟨g, hg⟩
    obtain ⟨placed, ss, hp, hs, -, -⟩ := ofCode_eq_ok hg
    obtain ⟨hans, hnd⟩ := hp1 placed hp
    refine ⟨hnd, fun x hx => ?_⟩
    obtain ⟨j, hj⟩ := mem_iff_getElem?.mp hx
    obtain ⟨js, -, hjs⟩ := ((succsFrom_spec hans code.length 0 code).1 ss hs).2 j x hj
    exact ((succsOf_spec hans _ _ x).1 js hjs).1
  · rintro ⟨hnd, hplaced⟩
    obtain ⟨placed, hp⟩ := hp2 hnd
    obtain ⟨ss, hss⟩ := (succsFrom_spec (hp1 placed hp).1 code.length 0 code).2 hplaced
    exact ⟨_, bind_eq_ok_iff.mpr ⟨placed, hp, bind_eq_ok_iff.mpr ⟨ss, hss, rfl⟩⟩⟩

section

variable (hg : ofCode code = .ok g)
include hg

theorem size_succ : g.succ.size = code.length := by
  obtain ⟨placed, ss, hp, hs, hsucc, -⟩ := ofCode_eq_ok hg
  have hans := ((places_spec code).1 placed hp).1
  rw [hsucc, size_toArray]
  exact ((succsFrom_spec hans code.length 0 code).1 ss hs).1

theorem size_pred : g.pred.size = code.length := by
  rw [← size_succ hg]
  obtain ⟨placed, ss, -, -, hsucc, hpred⟩ := ofCode_eq_ok hg
  rw [hsucc, hpred, Array.size_ofFn]

/-- The successors of an instruction are those that may follow it, each once. -/
theorem succOf_spec (i : Nat) : (g.succOf i).Nodup ∧ ∀ j, j ∈ g.succOf i ↔ code.Follows i j := by
  obtain ⟨placed, ss, hp, hs, hsucc, -⟩ := ofCode_eq_ok hg
  have hans := ((places_spec code).1 placed hp).1
  obtain ⟨hlen, hget⟩ := (succsFrom_spec hans code.length 0 code).1 ss hs
  have hsuccOf : g.succOf i = (ss[i]?).getD [] := by
    simp [succOf, hsucc, Array.getD_eq_getD_getElem?]
  rw [hsuccOf]
  cases hx : code[i]? with
  | none =>
    have hss : ss[i]? = none := by
      rw [List.getElem?_eq_none_iff] at hx ⊢
      omega
    rw [hss]
    exact ⟨nodup_nil, fun j => by simp [Code.Follows, hx]⟩
  | some x =>
    obtain ⟨js, hjs, hsucc⟩ := hget i x hx
    rw [Nat.zero_add] at hsucc
    obtain ⟨-, hnd, hm⟩ := (succsOf_spec hans code.length i x).1 js hsucc
    rw [hjs]
    refine ⟨hnd, fun j => ?_⟩
    rw [Option.getD_some, hm j]
    simp [Code.Follows, hx]

theorem mem_succOf {i j : Nat} : j ∈ g.succOf i ↔ code.Follows i j := (succOf_spec hg i).2 j

theorem predOf_eq (j : Nat) : g.predOf j = if j < code.length then predsOf g.succ j else [] := by
  have hsize := size_succ hg
  obtain ⟨placed, ss, -, -, hsucc, hpred⟩ := ofCode_eq_ok hg
  rw [hsucc, size_toArray] at hsize
  simp only [predOf, hpred, hsucc, Array.getD_eq_getD_getElem?, Array.getElem?_ofFn,
    size_toArray, hsize]
  by_cases h : j < code.length
  · simp [h]
  · simp [h]

theorem nodup_predOf (j : Nat) : (g.predOf j).Nodup := by
  rw [predOf_eq hg]
  split
  · exact List.Nodup.filter _ nodup_range
  · exact nodup_nil

/-- The predecessors of an instruction are those that it may follow. -/
theorem mem_predOf {i j : Nat} : i ∈ g.predOf j ↔ code.Follows i j := by
  have hmem : i ∈ predsOf g.succ j ↔ i < code.length ∧ j ∈ g.succOf i := by
    simp [predsOf, succOf, size_succ hg]
  rw [predOf_eq hg]
  constructor
  · intro h
    split at h
    · exact (mem_succOf hg).mp (hmem.mp h).2
    · cases h
  · intro h
    rw [if_pos h.lt_right, hmem]
    exact ⟨h.lt_left, (mem_succOf hg).mpr h⟩

end

/-! ### What is reported -/

theorem placesFrom_error {first : Code} {e : Error} (rest : Code)
    (h : Answers placed first) (he : placesFrom placed first.length rest = .error e) :
    ∃ l j i, e = .placedTwice (some l) j i ∧ j < i ∧ Code.PlacesAt (first ++ rest) l j ∧
      Code.PlacesAt (first ++ rest) l i := by
  induction rest generalizing placed first with
  | nil => cases he
  | cons x rest ih =>
    have hsplit : first ++ x :: rest = (first ++ [x]) ++ rest := by simp
    have hlen : first.length + 1 = (first ++ [x]).length := by simp
    unfold placesFrom at he
    split at he
    · rename_i hx
      rw [hlen] at he
      exact hsplit ▸ ih (h.skip hx) he
    · rename_i l hx
      split at he
      · rename_i j hj
        cases he
        obtain ⟨y, hy, hl⟩ := (h l j).mp hj
        have hlt := (List.getElem?_eq_some_iff.mp hy).1
        refine ⟨l, j, first.length, rfl, hlt, ⟨y, ?_, hl⟩, x, by simp, hx⟩
        rw [getElem?_append_left hlt, hy]
      · rename_i hj
        rw [hlen] at he
        exact hsplit ▸ ih (h.place hx hj) he

theorem destsOf_error {i : Nat} {x : Instr} {e : Error} (he : destsOf placed i x = .error e) :
    ∃ d ∈ x.dests, e = .unknownLabel i x.text d ∧ ∀ l, d = some l → placed.lookup l = none := by
  obtain ⟨d, hd, he⟩ := exists_error_of_mapM he
  split at he
  · cases he
  · rename_i hnone
    cases he
    refine ⟨d, hd, rfl, ?_⟩
    rintro l rfl
    exact hnone

theorem succsFrom_error {n i : Nat} {rest : Code} {e : Error}
    (he : succsFrom placed n i rest = .error e) :
    ∃ j x, rest[j]? = some x ∧ ∃ d ∈ x.dests, e = .unknownLabel (i + j) x.text d ∧
      ∀ l, d = some l → placed.lookup l = none := by
  induction rest generalizing i with
  | nil => cases he
  | cons x rest ih =>
    simp only [succsFrom, succsOf, bind_eq_error_iff] at he
    obtain (hd | ⟨_, -, ⟨⟩⟩) | ⟨_, -, hr | ⟨_, -, ⟨⟩⟩⟩ := he
    · exact ⟨0, x, rfl, destsOf_error hd⟩
    · obtain ⟨j, y, hy, d, hd, heq, hl⟩ := ih hr
      exact ⟨j + 1, y, hy, d, hd, by rw [heq, Nat.add_assoc, Nat.add_comm 1], hl⟩

end Flow

/-- Some label is placed by two instructions. -/
def Code.PlacesTwice (code : Code) : Prop :=
  ∃ l i j, i < j ∧ code.PlacesAt l i ∧ code.PlacesAt l j

/-- The destination is placed by no instruction, which holds of an absent one. -/
def Code.Lacks (code : Code) (d : Option Label) : Prop :=
  ∀ y ∈ code, ∀ l, y.label = some l → d ≠ some l

theorem Code.lacks_iff {d : Option Label} : code.Lacks d ↔ ∀ l, d = some l → l ∉ code.labels := by
  simp only [Code.Lacks, Code.labels, mem_filterMap, not_exists, not_and]
  constructor
  · rintro h l rfl y hy hl
    exact h y hy l hl rfl
  · rintro h y hy l hl rfl
    exact h l rfl y hy hl

theorem Code.placesTwice_iff : code.PlacesTwice ↔ ¬code.labels.Nodup := by
  rw [Code.labels, List.Nodup, pairwise_filterMap, pairwise_iff_getElem]
  constructor
  · rintro ⟨l, i, j, hij, ⟨x, hx, hxl⟩, y, hy, hyl⟩ h
    obtain ⟨hi, rfl⟩ := List.getElem?_eq_some_iff.mp hx
    obtain ⟨hj, rfl⟩ := List.getElem?_eq_some_iff.mp hy
    exact h i j hi hj hij l hxl l hyl rfl
  · intro h
    by_contra hno
    refine h fun i j hi hj hij l hl l' hl' hll => hno ⟨l, i, j, hij, ?_, ?_⟩
    · exact ⟨_, getElem?_eq_getElem hi, hl⟩
    · exact ⟨_, getElem?_eq_getElem hj, hll ▸ hl'⟩

theorem Code.wellLabelled_iff :
    code.WellLabelled ↔ ¬code.PlacesTwice ∧ ∀ x ∈ code, ∀ d ∈ x.dests, ¬code.Lacks d := by
  have hplaced (d : Option Label) : ¬code.Lacks d ↔ ∃ l, d = some l ∧ l ∈ code.labels := by
    simp [Code.lacks_iff]
  simp only [Code.placesTwice_iff, not_not, hplaced]
  exact ⟨fun h => ⟨h.nodup, h.placed⟩, fun h => ⟨h.1, h.2⟩⟩

namespace Flow

variable {code : Code} {g : Flow}

/-- Code without a flow graph has a label that is placed twice, or else a destination that is not
placed, and the error tells where. -/
theorem ofCode_error {e : Error} (he : ofCode code = .error e) :
    (∃ l j i, e = .placedTwice (some l) j i ∧ j < i ∧ code.PlacesAt l j ∧ code.PlacesAt l i) ∨
      ¬code.PlacesTwice ∧ ∃ i x d, e = .unknownLabel i x.text d ∧ code[i]? = some x ∧
        d ∈ x.dests ∧ code.Lacks d := by
  have hnone : Answers [] [] := fun l j => by simp [Code.PlacesAt]
  simp only [ofCode, bind_eq_error_iff] at he
  obtain hp | ⟨placed, hp, hs | ⟨_, -, ⟨⟩⟩⟩ := he
  · exact Or.inl (placesFrom_error code hnone hp)
  · obtain ⟨hans, hnodup⟩ := (places_spec code).1 placed hp
    obtain ⟨i, x, hx, d, hd, heq, hl⟩ := succsFrom_error hs
    refine Or.inr ⟨fun h => Code.placesTwice_iff.mp h hnodup, i, x, d, ?_, hx, hd, ?_⟩
    · rw [heq, Nat.zero_add]
    · exact Code.lacks_iff.mpr fun l hdl => hans.lookup_eq_none.mp (hl l hdl)

/-- The edge from one instruction to another, by what the two say. -/
theorem follows_iff {i j : Nat} {x y : Instr} (hx : code[i]? = some x) (hy : code[j]? = some y) :
    code.Follows i j ↔ (j = i + 1 ∧ (x.dests = [] ∨ x.next = true)) ∨
      ∃ l, y.label = some l ∧ some l ∈ x.dests := by
  have hj := (List.getElem?_eq_some_iff.mp hy).1
  have hfalls : x.fallsThrough = true ↔ x.dests = [] ∨ x.next = true := by simp [Instr.fallsThrough]
  simp only [Code.Follows, Code.PlacesAt, hx, hy, Option.some.injEq, exists_eq_left', hfalls, hj,
    and_true]
  exact or_congr and_comm (exists_congr fun l => and_comm)

/-- The flow graph is exact. There is none just if some label is placed by two instructions or some
destination is placed by none, and the error names the one or, where no label is placed twice, the
other. Otherwise an instruction is followed by the next one, unless it has destinations and does not
say so, and by those that place its destinations; what it follows mirrors that; and each is listed
once. -/
theorem ofCode_exact (code : Code) :
    ((∃ e, ofCode code = .error e) ↔
      code.PlacesTwice ∨ ∃ x ∈ code, ∃ d ∈ x.dests, code.Lacks d) ∧
    (∀ e, ofCode code = .error e →
      (∃ l i j, e = .placedTwice (some l) i j ∧ i < j ∧ code.PlacesAt l i ∧ code.PlacesAt l j) ∨
      ¬code.PlacesTwice ∧ e.kind = .unknownLabel ∧ ∃ i x d, e = .unknownLabel i x.text d ∧
        code[i]? = some x ∧ d ∈ x.dests ∧ code.Lacks d) ∧
    ∀ g, ofCode code = .ok g →
      g.succ.size = code.length ∧ g.pred.size = code.length ∧
      (∀ i j x y, code[i]? = some x → code[j]? = some y →
        (j ∈ g.succOf i ↔ (j = i + 1 ∧ (x.dests = [] ∨ x.next = true)) ∨
          ∃ l, y.label = some l ∧ some l ∈ x.dests)) ∧
      (∀ i j, i ∈ g.predOf j ↔ j ∈ g.succOf i) ∧
      (∀ i, ∀ j ∈ g.succOf i, i < code.length ∧ j < code.length) ∧
      ∀ i, (g.succOf i).Nodup ∧ (g.predOf i).Nodup := by
  refine ⟨?_, fun e he => ?_, fun g hg => ⟨size_succ hg, size_pred hg, fun i j x y hx hy => ?_,
    fun i j => ?_, fun i j hj => ?_, fun i => ⟨(succOf_spec hg i).1, nodup_predOf hg i⟩⟩⟩
  · have hok : (∃ g, ofCode code = .ok g) ↔ code.WellLabelled := ofCode_isOk_iff
    rw [Code.wellLabelled_iff] at hok
    cases hrun : ofCode code with
    | ok g =>
      rw [hrun] at hok
      obtain ⟨honce, hplaced⟩ := hok.mp ⟨g, rfl⟩
      refine ⟨?_, ?_⟩
      · rintro ⟨e, he⟩
        cases he
      · rintro (h | ⟨x, hx, d, hd, h⟩)
        · exact absurd h honce
        · exact absurd h (hplaced x hx d hd)
    | error e =>
      refine ⟨fun _ => ?_, fun _ => ⟨e, rfl⟩⟩
      rcases ofCode_error hrun with ⟨l, i, j, -, h⟩ | ⟨-, i, x, d, -, hx, h⟩
      · exact Or.inl ⟨l, i, j, h⟩
      · exact Or.inr ⟨x, mem_of_getElem? hx, d, h⟩
  · rcases ofCode_error he with h | ⟨h, i, x, d, rfl, hrest⟩
    · exact Or.inl h
    · exact Or.inr ⟨h, rfl, i, x, d, rfl, hrest⟩
  · rw [mem_succOf hg, follows_iff hx hy]
  · rw [mem_predOf hg, mem_succOf hg]
  · rw [mem_succOf hg] at hj
    exact ⟨hj.lt_left, hj.lt_right⟩

/-- A loop of two instructions, the first of which names the second as its destination twice and
also goes on to it. -/
def tightLoop : Code :=
  [{ text := "a:", label := some ⟨0, 0, "a"⟩, dests := [some ⟨0, 1, "b"⟩, some ⟨0, 1, "b"⟩],
     next := true },
    { text := "b:", label := some ⟨0, 1, "b"⟩, dests := [some ⟨0, 0, "a"⟩] }]

theorem tightLoop_exact : ∃ g, ofCode tightLoop = .ok g ∧ 1 ∈ g.succOf 0 ∧ 0 ∈ g.predOf 1 ∧
    (g.succOf 0).Nodup ∧ 0 ∈ g.succOf 1 := by
  obtain ⟨g, hg⟩ : ∃ g, ofCode tightLoop = .ok g := ⟨_, rfl⟩
  obtain ⟨-, -, hsucc, hpred, -, hnodup⟩ := (ofCode_exact tightLoop).2.2 g hg
  have hnext : 1 ∈ g.succOf 0 := (hsucc 0 1 _ _ rfl rfl).mpr (Or.inl ⟨rfl, Or.inr rfl⟩)
  have hback : 0 ∈ g.succOf 1 :=
    (hsucc 1 0 _ _ rfl rfl).mpr (Or.inr ⟨⟨0, 0, "a"⟩, rfl, mem_cons_self⟩)
  exact ⟨g, hg, hnext, (hpred 0 1).mpr hnext, (hnodup 0).1, hback⟩

end Flow

end Codegen
