import Codegen.Liveness
import Mathlib.Data.List.Nodup

/-!
# Numbers of registers

The numbering that code gives to its registers: each register that counts has exactly one number,
and what an instruction reads and writes by numbers is what it reads and writes (`RefersTo`).
-/

namespace Codegen

open List

namespace Numbering

variable {n : Numbering}

/-- Register `r` has the number `i`. -/
def Names (n : Numbering) (i : Nat) (r : Option Reg) : Prop := n.regs[i]? = some r

theorem names_iff {i : Nat} {r : Option Reg} :
    n.Names i r ↔ ∃ h : i < n.regs.size, n.regs[i] = r := Array.getElem?_eq_some_iff

theorem names_push {i : Nat} {r r' : Option Reg} {count : Array Nat} :
    Names { regs := n.regs.push r, count } i r' ↔ n.Names i r' ∨ i = n.regs.size ∧ r' = r := by
  unfold Names
  rw [Array.getElem?_push]
  split
  · rename_i hi
    subst hi
    simp [eq_comm]
  · rename_i hi
    simp [hi]

/-- Later numberings keep the numbers of earlier ones. -/
def Extends (n n' : Numbering) : Prop :=
  ∀ i r, n.Names i r → n'.Names i r

theorem Extends.refl (n : Numbering) : n.Extends n := fun _ _ h => h

theorem Extends.trans {n n' n'' : Numbering} (h : n.Extends n') (h' : n'.Extends n'') :
    n.Extends n'' := fun i r hr => h' i r (h i r hr)

/-- No register has two numbers. -/
def Injective (n : Numbering) : Prop :=
  ∀ i j r, n.Names i r → n.Names j r → i = j

theorem index?_eq_some (h : n.Injective) {r : Option Reg} {i : Nat} :
    n.index? r = some i ↔ n.Names i r := by
  unfold index?
  rw [Array.findIdx?_eq_some_iff_getElem, names_iff]
  constructor
  · rintro ⟨hi, hr, -⟩
    exact ⟨hi, by simpa using hr⟩
  · rintro ⟨hi, hr⟩
    refine ⟨hi, by simpa using hr, fun j hj hjr => ?_⟩
    have heq : n.Names j r := names_iff.mpr ⟨by omega, by simpa using hjr⟩
    have := h j i r heq (names_iff.mpr ⟨hi, hr⟩)
    omega

theorem index?_eq_none {r : Option Reg} : n.index? r = none ↔ ∀ i, ¬ n.Names i r := by
  unfold index?
  rw [Array.findIdx?_eq_none_iff]
  constructor
  · intro h i hi
    have := h r (Array.mem_of_getElem? hi)
    simp at this
  · intro h x hx
    obtain ⟨i, hi, rfl⟩ := Array.mem_iff_getElem.mp hx
    by_contra hr
    exact h i (names_iff.mpr ⟨hi, by simpa using hr⟩)

/-- Numbering a register keeps what is there and finds a place for the register. -/
theorem number_spec {n n' : Numbering} {r : Option Reg} {i : Nat} (hn : n.Injective)
    (h : n.number r = (i, n')) :
    n.Extends n' ∧ n'.Injective ∧ n'.Names i r ∧
      ∀ j r', n'.Names j r' → n.Names j r' ∨ r' = r := by
  unfold number at h
  split at h
  · rename_i j hj
    cases h
    exact ⟨Extends.refl n, hn, (index?_eq_some hn).mp hj, fun j r' h => Or.inl h⟩
  · rename_i hnone
    cases h
    have hnew := index?_eq_none.mp hnone
    refine ⟨fun j r' hj => names_push.mpr (Or.inl hj), fun j j' r' hj hj' => ?_,
      names_push.mpr (Or.inr ⟨rfl, rfl⟩), fun j r' hj => ?_⟩
    · rcases names_push.mp hj with hj | ⟨hj, rfl⟩ <;> rcases names_push.mp hj' with hj' | ⟨hj', hr⟩
      · exact hn j j' r' hj hj'
      · exact absurd (hr ▸ hj) (hnew j)
      · exact absurd hj' (hnew j')
      · omega
    · rcases names_push.mp hj with hj | ⟨-, rfl⟩
      · exact Or.inl hj
      · exact Or.inr rfl

/-- The numbers in a list are those of the given registers, each once. -/
structure Lists (n : Numbering) (list : List Nat) (ignore : Option Reg) (rs : List (Option Reg)) :
    Prop where
  nodup : list.Nodup
  mem : ∀ i, i ∈ list ↔ ∃ r ∈ rs, r ≠ ignore ∧ n.Names i r

theorem Lists.mono {n n' : Numbering} {list : List Nat} {ignore : Option Reg}
    {rs : List (Option Reg)} (h : n.Lists list ignore rs) (he : n.Extends n') (hn : n'.Injective)
    (hall : ∀ r ∈ rs, r ≠ ignore → ∃ i, n.Names i r) : n'.Lists list ignore rs := by
  refine ⟨h.nodup, fun i => ?_⟩
  rw [h.mem i]
  constructor
  · rintro ⟨r, hr, hri, hi⟩
    exact ⟨r, hr, hri, he i r hi⟩
  · rintro ⟨r, hr, hri, hi⟩
    obtain ⟨j, hj⟩ := hall r hr hri
    have hij : i = j := hn i j r hi (he j r hj)
    exact ⟨r, hr, hri, hij ▸ hj⟩

/-- What a step of numbering preserves: `done` are the registers that were referred to before. -/
structure Referred (ignore : Option Reg) (n : Numbering) (done : List (Option Reg))
    (acc : List Nat × Numbering) : Prop where
  ext : n.Extends acc.2
  inj : acc.2.Injective
  lists : acc.2.Lists acc.1 ignore done
  all : ∀ r ∈ done, r ≠ ignore → ∃ i, acc.2.Names i r
  only : ∀ i r, acc.2.Names i r → (∃ i, n.Names i r) ∨ r ∈ done ∧ r ≠ ignore

theorem Referred.refer {ignore : Option Reg} {done : List (Option Reg)}
    {acc : List Nat × Numbering} (h : Referred ignore n done acc) (r : Option Reg) :
    Referred ignore n (done ++ [r]) (refer ignore acc r) := by
  unfold Numbering.refer
  split
  · rename_i hr
    refine ⟨h.ext, h.inj, ⟨h.lists.nodup, fun i => ?_⟩, ?_, ?_⟩
    · rw [h.lists.mem i]
      constructor
      · rintro ⟨r', hr', hri, hi⟩
        exact ⟨r', by simp [hr'], hri, hi⟩
      · rintro ⟨r', hr', hri, hi⟩
        rcases mem_append.mp hr' with hr' | hr'
        · exact ⟨r', hr', hri, hi⟩
        · exact absurd ((mem_singleton.mp hr').trans hr) hri
    · intro r' hr' hri
      rcases mem_append.mp hr' with hr' | hr'
      · exact h.all r' hr' hri
      · exact absurd ((mem_singleton.mp hr').trans hr) hri
    · intro i r' hi
      rcases h.only i r' hi with h' | ⟨h', hri⟩
      · exact Or.inl h'
      · exact Or.inr ⟨by simp [h'], hri⟩
  · rename_i hr
    obtain ⟨list, m⟩ := acc
    simp only
    cases hnum : m.number r with
    | mk i m' =>
      obtain ⟨hext, hinj, hi, honly⟩ := number_spec h.inj hnum
      have hlists := h.lists.mono hext hinj h.all
      have hmem : ∀ j, (∃ r' ∈ done ++ [r], r' ≠ ignore ∧ m'.Names j r') ↔
          j ∈ list ∨ j = i := by
        intro j
        rw [hlists.mem j]
        constructor
        · rintro ⟨r', hr', hri, hj⟩
          rcases mem_append.mp hr' with hr' | hr'
          · exact Or.inl ⟨r', hr', hri, hj⟩
          · rw [mem_singleton.mp hr'] at hj
            exact Or.inr (hinj j i r hj hi)
        · rintro (⟨r', hr', hri, hj⟩ | rfl)
          · exact ⟨r', by simp [hr'], hri, hj⟩
          · exact ⟨r, by simp, hr, hi⟩
      have hall : ∀ r' ∈ done ++ [r], r' ≠ ignore → ∃ j, m'.Names j r' := by
        intro r' hr' hri
        rcases mem_append.mp hr' with hr' | hr'
        · obtain ⟨j, hj⟩ := h.all r' hr' hri
          exact ⟨j, hext j r' hj⟩
        · rw [mem_singleton.mp hr']
          exact ⟨i, hi⟩
      have honly' : ∀ j r', m'.Names j r' →
          (∃ j, n.Names j r') ∨ r' ∈ done ++ [r] ∧ r' ≠ ignore := by
        intro j r' hj
        rcases honly j r' hj with hj | rfl
        · rcases h.only j r' hj with h' | ⟨h', hri⟩
          · exact Or.inl h'
          · exact Or.inr ⟨by simp [h'], hri⟩
        · exact Or.inr ⟨by simp, hr⟩
      split
      · rename_i hmemi
        refine ⟨h.ext.trans hext, hinj, ⟨hlists.nodup, fun j => ?_⟩, hall, honly'⟩
        rw [hmem j]
        have hi' : i ∈ list := by simpa using hmemi
        constructor
        · exact Or.inl
        · rintro (hj | rfl)
          · exact hj
          · exact hi'
      · rename_i hmemi
        refine ⟨h.ext.trans hext, hinj, ⟨?_, fun j => ?_⟩, hall, honly'⟩
        · exact nodup_append'.mpr ⟨hlists.nodup, by simp, by simpa using hmemi⟩
        · have hj : j ∈ list ++ [i] ↔ j ∈ list ∨ j = i := by simp
          exact hj.trans (hmem j).symm

theorem Referred.foldl {ignore : Option Reg} {rs done : List (Option Reg)}
    {acc : List Nat × Numbering} (h : Referred ignore n done acc) :
    Referred ignore n (done ++ rs) (rs.foldl (Numbering.refer ignore) acc) := by
  induction rs generalizing done acc with
  | nil => simpa using h
  | cons r rest ih =>
    have := ih (h.refer r)
    simpa using this

theorem referAll_spec (ignore : Option Reg) (hn : n.Injective)
    (rs : List (Option Reg)) : Referred ignore n rs (n.referAll ignore rs) := by
  have h0 : Referred ignore n [] ([], n) :=
    ⟨Extends.refl n, hn, ⟨nodup_nil, by simp⟩, by simp, fun i r h => Or.inl ⟨i, h⟩⟩
  exact h0.foldl

/-- What the references of one instruction are. -/
structure RefersTo (n : Numbering) (ignore : Option Reg) (x : Instr) (refs : Refs) : Prop where
  uses : n.Lists refs.uses ignore x.reads
  defs : n.Lists refs.defs ignore x.writes
  isMove : refs.isMove = (x.isMove && refs.uses.length == 1 && refs.defs.length == 1)

theorem ofCode_spec (ignore : Option Reg) (hn : n.Injective) (code : Code) :
    n.Extends (ofCode ignore n code).2 ∧ (ofCode ignore n code).2.Injective ∧
    (ofCode ignore n code).1.length = code.length ∧
    (∀ (i : Nat) x refs, code[i]? = some x → (ofCode ignore n code).1[i]? = some refs →
      (ofCode ignore n code).2.RefersTo ignore x refs) ∧
    (∀ r ∈ Code.regs code, r ≠ ignore → ∃ i, (ofCode ignore n code).2.Names i r) ∧
    (∀ i r, (ofCode ignore n code).2.Names i r →
      (∃ i, n.Names i r) ∨ r ∈ Code.regs code ∧ r ≠ ignore) := by
  induction code generalizing n with
  | nil =>
    refine ⟨Extends.refl n, hn, rfl, by simp, by simp [Code.regs], fun i r h => Or.inl ⟨i, h⟩⟩
  | cons x rest ih =>
    unfold ofCode
    have hu := referAll_spec ignore hn x.reads
    generalize n.referAll ignore x.reads = ru at hu
    obtain ⟨uses, nu⟩ := ru
    have hd := referAll_spec ignore hu.inj x.writes
    simp only at hd ⊢
    generalize nu.referAll ignore x.writes = rd at hd
    obtain ⟨defs, nd⟩ := rd
    obtain ⟨hext, hinj, hlen, hrefs, hall, honly⟩ := ih hd.inj
    simp only at hext hinj hlen hrefs hall honly ⊢
    generalize ofCode ignore nd rest = rr at hext hinj hlen hrefs hall honly
    obtain ⟨refs, nr⟩ := rr
    simp only at hext hinj hlen hrefs hall honly ⊢
    have hallx : ∀ r ∈ x.reads ++ x.writes, r ≠ ignore → ∃ i, nd.Names i r := by
      intro r hr hri
      rcases mem_append.mp hr with hr | hr
      · obtain ⟨i, hi⟩ := hu.all r hr hri
        exact ⟨i, hd.ext i r hi⟩
      · exact hd.all r hr hri
    refine ⟨hu.ext.trans (hd.ext.trans hext), hinj, by simp [hlen], ?_, ?_, ?_⟩
    · intro i y refs' hy hrefs'
      cases i with
      | zero =>
        cases hy
        cases hrefs'
        exact ⟨hu.lists.mono (hd.ext.trans hext) hinj hu.all, hd.lists.mono hext hinj hd.all, rfl⟩
      | succ i => exact hrefs i y refs' (by simpa using hy) (by simpa using hrefs')
    · intro r hr hri
      rw [Code.regs, flatMap_cons, mem_append] at hr
      rcases hr with hr | hr
      · obtain ⟨i, hi⟩ := hallx r hr hri
        exact ⟨i, hext i r hi⟩
      · exact hall r hr hri
    · intro i r hi
      rw [Code.regs, flatMap_cons, mem_append, mem_append]
      rcases honly i r hi with ⟨j, hj⟩ | ⟨hr, hri⟩
      · rcases hd.only j r hj with ⟨j, hj⟩ | ⟨hr, hri⟩
        · rcases hu.only j r hj with h' | ⟨hr, hri⟩
          · exact Or.inl h'
          · exact Or.inr ⟨Or.inl (Or.inl hr), hri⟩
        · exact Or.inr ⟨Or.inl (Or.inr hr), hri⟩
      · exact Or.inr ⟨Or.inr hr, hri⟩

end Numbering

end Codegen
