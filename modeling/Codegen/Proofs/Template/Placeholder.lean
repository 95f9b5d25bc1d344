import Codegen.Template.Skeleton
import Mathlib.Tactic.ByContra
import Mathlib.Tactic.SplitIfs

/-!
# Placeholders

What can stand between the braces of a skeleton (`Part.Placeholder`). A placeholder is resolved to what
it stands for and to nothing else (`Part.ofPlaceholder_eq_ok_iff`).
-/

namespace Codegen

open List

/-- What a placeholder with the given text stands for. A leaf is written by any number of 64 bits that
says which of them; in front of one that is only read a plus sign would mean an update. -/
inductive Part.Placeholder (reg? : String → Option Reg) (leaves : List LeafKind) :
    List Char → Part → Prop
  | out : Placeholder reg? leaves "out".toList (.out .write)
  | updateOut : Placeholder reg? leaves "+out".toList (.out .update)
  | onTrue : Placeholder reg? leaves "true".toList .onTrue
  | onFalse : Placeholder reg? leaves "false".toList .onFalse
  | label : Placeholder reg? leaves "label".toList .label
  | readReg {name : List Char} {r : Reg} (hr : reg? (String.ofList name) = some r) :
      Placeholder reg? leaves ("in:".toList ++ name) (.fixed r .read)
  | writeReg {name : List Char} {r : Reg} (hr : reg? (String.ofList name) = some r) :
      Placeholder reg? leaves ("out:".toList ++ name) (.fixed r .write)
  | readLeaf {number : List Char} {n : Nat} (hsign : number.head? ≠ some '+')
      (hn : Text.readInt? number = some n) (hlt : n < leaves.length) :
      Placeholder reg? leaves number (.leaf n .read)
  | writeLeaf {number : List Char} {n : Nat} (hn : Text.readInt? number = some n)
      (htemp : leaves[n]? = some .temp) : Placeholder reg? leaves ('=' :: number) (.leaf n .write)
  | updateLeaf {number : List Char} {n : Nat} (hn : Text.readInt? number = some n)
      (htemp : leaves[n]? = some .temp) : Placeholder reg? leaves ('+' :: number) (.leaf n .update)

namespace Part

variable {reg? : String → Option Reg} {leaves : List LeafKind} {body : List Char} {p : Part}

theorem dropStart?_eq_some_iff {start : String} {cs rest : List Char} :
    dropStart? start cs = some rest ↔ cs = start.toList ++ rest := by
  unfold dropStart?
  rw [Option.ite_none_right_eq_some, Option.some.injEq, isPrefixOf_iff_prefix]
  constructor
  · rintro ⟨⟨tail, rfl⟩, rfl⟩
    rw [← String.length_toList, drop_left]
  · rintro rfl
    exact ⟨prefix_append _ _, by rw [← String.length_toList, drop_left]⟩

theorem fixedReg_eq_ok_iff {name : List Char} {access : Access} :
    fixedReg reg? name access = .ok p ↔
      ∃ r, reg? (String.ofList name) = some r ∧ p = .fixed r access := by
  unfold fixedReg
  cases reg? (String.ofList name) with
  | none => simp
  | some r => simp [eq_comm]

theorem ofLeaf_eq_ok_iff {number : List Char} {access : Access} :
    ofLeaf leaves number access = .ok p ↔ ∃ n : Nat, Text.readInt? number = some n ∧
      n < leaves.length ∧ (access.writes = true → leaves[n]? = some .temp) ∧ p = .leaf n access := by
  unfold ofLeaf
  cases hn : Text.readInt? number with
  | none => simp
  | some i =>
    cases i with
    | negSucc m => simp
    | ofNat m =>
      dsimp only
      constructor
      · intro h
        split at h
        · cases h
        · rename_i kind hm
          obtain ⟨hlt, -⟩ := List.getElem?_eq_some_iff.mp hm
          split at h
          · cases h
          · rename_i hw
            cases h
            refine ⟨m, rfl, hlt, fun hacc => ?_, rfl⟩
            simpa [hm, hacc] using hw
      · rintro ⟨n, hmn, hlt, htemp, rfl⟩
        obtain rfl : m = n := Int.ofNat.inj (Option.some.inj hmn)
        cases hw : access.writes with
        | true => rw [htemp hw]; rfl
        | false => rw [getElem?_eq_getElem hlt]; rfl

/-- A number begins with a digit or a sign. -/
theorem head?_of_readInt? {number : List Char} {i : Int} (h : Text.readInt? number = some i) :
    ∃ c cs, number = c :: cs ∧ (c = '-' ∨ c = '+' ∨ c.isDigit = true) := by
  cases number with
  | nil => simp [Text.readInt?, Text.readNat?] at h
  | cons c cs =>
    refine ⟨c, cs, rfl, ?_⟩
    by_contra hc
    simp only [not_or] at hc
    have hread : Text.readInt? (c :: cs) = (Text.readNat? (c :: cs)).map Int.ofNat := by
      rw [Text.readInt?]
      · intro ds hds
        exact hc.1 (List.cons.inj hds).1
      · intro ds hds
        exact hc.2.1 (List.cons.inj hds).1
    rw [hread] at h
    simp [Text.readNat?, hc.2.2] at h

theorem ne_cons_of_readInt? {number : List Char} {i : Int} (h : Text.readInt? number = some i)
    {c : Char} (hc : c ≠ '-' ∧ c ≠ '+' ∧ c.isDigit = false) (cs : List Char) : number ≠ c :: cs := by
  rintro rfl
  obtain ⟨d, ds, hd, hsign⟩ := head?_of_readInt? h
  cases hd
  simp [hc] at hsign

/-- No word and no register begins like a number or the mark of a leaf. -/
theorem ofPlaceholder_cons {c : Char} {cs : List Char} (hc : c ∉ ['o', 't', 'f', 'l', 'i'])
    (hupd : c :: cs ≠ "+out".toList) :
    (c = '=' → ofPlaceholder reg? leaves (c :: cs) = ofLeaf leaves cs .write) ∧
    (c = '+' → ofPlaceholder reg? leaves (c :: cs) = ofLeaf leaves cs .update) ∧
    (c ≠ '=' → c ≠ '+' → ofPlaceholder reg? leaves (c :: cs) = ofLeaf leaves (c :: cs) .read) := by
  simp only [mem_cons, not_mem_nil, or_false, not_or] at hc
  obtain ⟨ho, ht, hf, hl, hi⟩ := hc
  have hne (word : String) {d : Char} {ds : List Char} (hword : word.toList = d :: ds) (h : c ≠ d) :
      c :: cs ≠ word.toList := by
    simp [hword, h]
  have hdrop (start : String) {d : Char} {ds : List Char} (hstart : start.toList = d :: ds)
      (h : c ≠ d) : dropStart? start (c :: cs) = none := by
    rw [Option.eq_none_iff_forall_ne_some]
    intro rest hrest
    rw [dropStart?_eq_some_iff, hstart] at hrest
    exact h (List.cons.inj hrest).1
  unfold ofPlaceholder
  rw [if_neg (hne "out" rfl ho), if_neg hupd, if_neg (hne "true" rfl ht), if_neg (hne "false" rfl hf),
    if_neg (hne "label" rfl hl), hdrop "in:" rfl hi, hdrop "out:" rfl ho]
  dsimp only
  refine ⟨?_, ?_, ?_⟩
  · rintro rfl
    rfl
  · rintro rfl
    rfl
  · intro heq hplus
    split
    · rename_i hcons
      exact absurd (List.cons.inj hcons).1 heq
    · rename_i hcons
      exact absurd (List.cons.inj hcons).1 hplus
    · rfl

/-- A placeholder is resolved to what it stands for, and to nothing else. -/
theorem ofPlaceholder_eq_ok_iff :
    ofPlaceholder reg? leaves body = .ok p ↔ Placeholder reg? leaves body p := by
  constructor
  · intro h
    unfold ofPlaceholder at h
    split_ifs at h with hout hupd htrue hfalse hlabel
    · cases h; exact hout ▸ .out
    · cases h; exact hupd ▸ .updateOut
    · cases h; exact htrue ▸ .onTrue
    · cases h; exact hfalse ▸ .onFalse
    · cases h; exact hlabel ▸ .label
    · split at h
      · rename_i name hname
        obtain ⟨r, hr, rfl⟩ := fixedReg_eq_ok_iff.mp h
        exact dropStart?_eq_some_iff.mp hname ▸ .readReg hr
      · rename_i name _ hname
        obtain ⟨r, hr, rfl⟩ := fixedReg_eq_ok_iff.mp h
        exact dropStart?_eq_some_iff.mp hname ▸ .writeReg hr
      · split at h
        · obtain ⟨n, hn, -, htemp, rfl⟩ := ofLeaf_eq_ok_iff.mp h
          exact .writeLeaf hn (htemp rfl)
        · obtain ⟨n, hn, -, htemp, rfl⟩ := ofLeaf_eq_ok_iff.mp h
          exact .updateLeaf hn (htemp rfl)
        · rename_i hplus
          obtain ⟨n, hn, hlt, -, rfl⟩ := ofLeaf_eq_ok_iff.mp h
          refine .readLeaf (fun hsign => ?_) hn hlt
          obtain ⟨rest, hrest⟩ := head?_eq_some_iff.mp hsign
          exact hplus rest hrest
  · intro h
    cases h with
    | out | updateOut | onTrue | onFalse | label => rfl
    | @readReg name r hr =>
      have hdrop : dropStart? "in:" ("in:".toList ++ name) = some name :=
        dropStart?_eq_some_iff.mpr rfl
      unfold ofPlaceholder
      rw [if_neg (by simp), if_neg (by simp), if_neg (by simp), if_neg (by simp), if_neg (by simp),
        hdrop]
      exact fixedReg_eq_ok_iff.mpr ⟨r, hr, rfl⟩
    | @writeReg name r hr =>
      have hin : dropStart? "in:" ("out:".toList ++ name) = none := rfl
      have hdrop : dropStart? "out:" ("out:".toList ++ name) = some name :=
        dropStart?_eq_some_iff.mpr rfl
      unfold ofPlaceholder
      rw [if_neg (by simp), if_neg (by simp), if_neg (by simp), if_neg (by simp), if_neg (by simp),
        hin, hdrop]
      exact fixedReg_eq_ok_iff.mpr ⟨r, hr, rfl⟩
    | @readLeaf _ n hsign hn hlt =>
      obtain ⟨c, cs, rfl, hc⟩ := head?_of_readInt? hn
      have hplus : c ≠ '+' := by simpa using hsign
      have hmarks : ∀ d ∈ ['o', 't', 'f', 'l', 'i', '='], d ≠ '-' ∧ d ≠ '+' ∧ d.isDigit = false := by
        simp [Char.isDigit]
      have hmark : ∀ d ∈ ['o', 't', 'f', 'l', 'i', '='], c ≠ d := by
        rintro d hd rfl
        exact ne_cons_of_readInt? hn (hmarks c hd) cs rfl
      rw [(ofPlaceholder_cons (fun hmem => hmark c (mem_append_left ['='] hmem) rfl)
        (by simp [hplus])).2.2 (hmark '=' (by simp)) hplus]
      exact ofLeaf_eq_ok_iff.mpr ⟨n, hn, hlt, by simp [Access.writes], rfl⟩
    | writeLeaf hn htemp =>
      rw [(ofPlaceholder_cons (by decide) (by simp)).1 rfl]
      exact ofLeaf_eq_ok_iff.mpr ⟨_, hn, (List.getElem?_eq_some_iff.mp htemp).1, fun _ => htemp, rfl⟩
    | updateLeaf hn htemp =>
      have hupd := ne_cons_of_readInt? hn (c := 'o') (by decide) "ut".toList
      rw [(ofPlaceholder_cons (by decide) fun heq => hupd (List.cons.inj heq).2).2.1 rfl]
      exact ofLeaf_eq_ok_iff.mpr ⟨_, hn, (List.getElem?_eq_some_iff.mp htemp).1, fun _ => htemp, rfl⟩

theorem ofPiece_slot {offset : Nat} :
    ofPiece reg? leaves (.slot offset body) = .ok p ↔ Placeholder reg? leaves body p := by
  rw [← ofPlaceholder_eq_ok_iff, ofPiece]
  cases ofPlaceholder reg? leaves body <;> simp

end Part

end Codegen
