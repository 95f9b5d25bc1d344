import Codegen.Proofs.Bitmap
import Codegen.Proofs.Flow
import Codegen.Proofs.Numbering
import Mathlib.Data.Finset.Card
import Mathlib.Data.Finset.Image

/-!
# Liveness and code

`Code.LiveAfter` says that a register is live after an instruction by looking at the code alone:
control can go from there to an instruction that reads it without passing one that writes it.
`Describes` gathers what a liveness says about code, and `ofFlow_describes` shows that the computed
liveness says just that, with its sets exact.
-/

namespace Codegen

open List

variable {r : Option Reg} {code : Code}

/-- Register `r` is live after instruction `i`. -/
inductive Code.LiveAfter (code : Code) (r : Option Reg) : Nat → Prop
  /-- An instruction that may follow reads it. -/
  | read {i m : Nat} {x : Instr} (hf : code.Follows i m) (hx : code[m]? = some x)
      (hr : r ∈ x.reads) : LiveAfter code r i
  /-- It is live after an instruction that may follow, which does not write it. -/
  | pass {i m : Nat} {x : Instr} (hf : code.Follows i m) (hx : code[m]? = some x)
      (hw : r ∉ x.writes) (hl : LiveAfter code r m) : LiveAfter code r i

/-- Register `r` is live before instruction `i`. -/
def Code.LiveBefore (code : Code) (r : Option Reg) (i : Nat) : Prop :=
  ∃ x, code[i]? = some x ∧ (r ∈ x.reads ∨ r ∉ x.writes ∧ code.LiveAfter r i)

theorem Code.liveAfter_iff {i : Nat} :
    code.LiveAfter r i ↔ ∃ m, code.Follows i m ∧ code.LiveBefore r m := by
  constructor
  · intro h
    cases h with
    | read hf hx hr => exact ⟨_, hf, _, hx, Or.inl hr⟩
    | pass hf hx hw hl => exact ⟨_, hf, _, hx, Or.inr ⟨hw, hl⟩⟩
  · rintro ⟨m, hf, x, hx, hr | ⟨hw, hl⟩⟩
    · exact .read hf hx hr
    · exact .pass hf hx hw hl

/-- What is live is read somewhere. -/
theorem Code.LiveAfter.mem_regs {i : Nat} (h : code.LiveAfter r i) : r ∈ code.regs := by
  induction h with
  | read _ hx hr =>
    exact mem_flatMap.mpr ⟨_, mem_of_getElem? hx, mem_append_left _ hr⟩
  | pass _ _ _ _ ih => exact ih

theorem Code.mem_regs_of_reads {i : Nat} {x : Instr}
    (hx : code[i]? = some x) (hr : r ∈ x.reads) : r ∈ code.regs :=
  mem_flatMap.mpr ⟨x, mem_of_getElem? hx, mem_append_left _ hr⟩

theorem Code.mem_regs_of_writes {i : Nat} {x : Instr}
    (hx : code[i]? = some x) (hr : r ∈ x.writes) : r ∈ code.regs :=
  mem_flatMap.mpr ⟨x, mem_of_getElem? hx, mem_append_right _ hr⟩

theorem Code.LiveBefore.mem_regs {i : Nat} (h : code.LiveBefore r i) : r ∈ code.regs := by
  obtain ⟨x, hx, hr | ⟨-, hl⟩⟩ := h
  · exact Code.mem_regs_of_reads hx hr
  · exact hl.mem_regs

namespace Liveness

/-! ### Spreading backward -/

section Spread

variable {pred : Nat → List Nat} {defines : Nat → Bool} {n : Nat}

/-- The instructions that are not marked yet. -/
def unmarked (n : Nat) (marked : Bitmap) : Finset Nat :=
  (Finset.range n).filter fun i => marked.contains i = false

theorem card_unmarked_le (n : Nat) (marked : Bitmap) : (unmarked n marked).card ≤ n :=
  (Finset.card_filter_le _ _).trans (Finset.card_range n).le

theorem card_unmarked_foldl_insert (marked : Bitmap) {new : List Nat} (hnd : new.Nodup)
    (hlt : ∀ p ∈ new, p < n) (hnew : ∀ p ∈ new, marked.contains p = false) :
    (unmarked n (new.foldl Bitmap.insert marked)).card + new.length = (unmarked n marked).card := by
  have hsub : new.toFinset ⊆ unmarked n marked := by
    intro p hp
    have hp' : p ∈ new := mem_toFinset.mp hp
    simp [unmarked, hlt p hp', hnew p hp']
  have heq : unmarked n (new.foldl Bitmap.insert marked) = unmarked n marked \ new.toFinset := by
    ext p
    simp only [unmarked, Finset.mem_filter, Finset.mem_sdiff, mem_toFinset,
      Bitmap.contains_foldl_insert, Bool.or_eq_false_iff, decide_eq_false_iff_not]
    tauto
  rw [heq, ← toFinset_card_of_nodup hnd]
  exact Finset.card_sdiff_add_card_eq_card hsub

/-- Everything before the instructions in `src` and before marked instructions that do not stop the
spreading is marked, apart from what is before the stack. -/
def Closed (pred : Nat → List Nat) (defines : Nat → Bool) (src : Nat → Prop) (stack : List Nat)
    (marked : Bitmap) : Prop :=
  ∀ m, src m ∨ marked.contains m = true ∧ defines m = false →
    m ∈ stack ∨ ∀ p ∈ pred m, marked.contains p = true

theorem Closed.step {src : Nat → Prop} {m : Nat} {stack : List Nat} {marked : Bitmap}
    (h : Closed pred defines src (m :: stack) marked) :
    Closed pred defines src
      ((((pred m).filter fun p => !marked.contains p).filter fun p => !defines p) ++ stack)
      (((pred m).filter fun p => !marked.contains p).foldl Bitmap.insert marked) := by
  intro q hq
  simp only [Bitmap.contains_foldl_insert, Bool.or_eq_true, decide_eq_true_eq, mem_filter,
    mem_append] at hq ⊢
  by_cases hnew : q ∈ pred m ∧ (!marked.contains q) = true ∧ (!defines q) = true
  · exact Or.inl (Or.inl ⟨⟨hnew.1, hnew.2.1⟩, hnew.2.2⟩)
  have hold : src q ∨ marked.contains q = true ∧ defines q = false := by
    rcases hq with hq | ⟨⟨hq1, hq2⟩ | hq1, hq3⟩
    · exact Or.inl hq
    · exact absurd ⟨hq1, hq2, by simp [hq3]⟩ hnew
    · exact Or.inr ⟨hq1, hq3⟩
  rcases h q hold with hmem | hall
  · rcases mem_cons.mp hmem with rfl | hmem
    · refine Or.inr fun p hp => ?_
      cases hc : marked.contains p with
      | true => exact Or.inr rfl
      | false => exact Or.inl ⟨hp, rfl⟩
    · exact Or.inl (Or.inr hmem)
  · exact Or.inr fun p hp => Or.inr (hall p hp)

/-- A step takes one instruction off the stack and puts on it only what it has just marked. -/
theorem length_add_card_unmarked_le (hnd : ∀ m, (pred m).Nodup) (hlt : ∀ m, ∀ p ∈ pred m, p < n)
    {fuel m : Nat} {stack : List Nat} {marked : Bitmap}
    (hfuel : (m :: stack).length + (unmarked n marked).card ≤ fuel + 1) :
    ((((pred m).filter fun p => !marked.contains p).filter fun p => !defines p) ++ stack).length +
      (unmarked n (((pred m).filter fun p => !marked.contains p).foldl Bitmap.insert marked)).card ≤
        fuel := by
  have hcard := card_unmarked_foldl_insert (n := n) marked
    ((hnd m).filter fun p => !marked.contains p)
    (fun p hp => hlt m p (mem_filter.mp hp).1)
    (fun p hp => by simpa using (mem_filter.mp hp).2)
  have hlen := length_filter_le (fun p => !defines p)
    ((pred m).filter fun p => !marked.contains p)
  simp only [length_append, length_cons] at hfuel ⊢
  omega

/-- Enough steps leave nothing on the stack. -/
theorem spread_closed {src : Nat → Prop} (hnd : ∀ m, (pred m).Nodup)
    (hlt : ∀ m, ∀ p ∈ pred m, p < n) {fuel : Nat} {stack : List Nat} {marked : Bitmap}
    (hfuel : stack.length + (unmarked n marked).card ≤ fuel)
    (h : Closed pred defines src stack marked) :
    Closed pred defines src [] (spread pred defines fuel stack marked) := by
  induction fuel generalizing stack marked with
  | zero =>
    have : stack = [] := length_eq_zero_iff.mp (by omega)
    subst this
    simpa [spread] using h
  | succ fuel ih =>
    cases stack with
    | nil => simpa [spread] using h
    | cons m stack =>
      rw [spread]
      exact ih (length_add_card_unmarked_le hnd hlt hfuel) h.step

/-- Only what has to be marked is marked. -/
theorem spread_sound (live : Nat → Prop)
    (hlive : ∀ m, live m → defines m = false → ∀ p ∈ pred m, live p) {fuel : Nat}
    {stack : List Nat} {marked : Bitmap} (hstack : ∀ m ∈ stack, ∀ p ∈ pred m, live p)
    (hmarked : ∀ p, marked.contains p = true → live p) {p : Nat}
    (hp : (spread pred defines fuel stack marked).contains p = true) : live p := by
  induction fuel generalizing stack marked with
  | zero => exact hmarked p (by simpa [spread] using hp)
  | succ fuel ih =>
    cases stack with
    | nil => exact hmarked p (by simpa [spread] using hp)
    | cons m stack =>
      rw [spread] at hp
      have hnew : ∀ q ∈ (pred m).filter fun p => !marked.contains p, live q :=
        fun q hq => hstack m (by simp) q (mem_filter.mp hq).1
      refine ih ?_ ?_ hp
      · intro q hq
        rcases mem_append.mp hq with hq | hq
        · obtain ⟨hq, hd⟩ := mem_filter.mp hq
          exact hlive q (hnew q hq) (by simpa using hd)
        · exact hstack q (by simp [hq])
      · intro q hq
        rw [Bitmap.contains_foldl_insert, Bool.or_eq_true, decide_eq_true_eq] at hq
        rcases hq with hq | hq
        · exact hnew q hq
        · exact hmarked q hq

end Spread

/-! ### The liveness of code -/

/-- Register `r` has the number `n`. -/
def Names (l : Liveness) (n : Nat) (r : Option Reg) : Prop := l.regs[n]? = some r

/-- What a liveness says about an instruction. -/
structure RefersTo (l : Liveness) (ignore : Option Reg) (x : Instr) (refs : Refs) : Prop where
  nodup_uses : refs.uses.Nodup
  nodup_defs : refs.defs.Nodup
  mem_uses : ∀ n, n ∈ refs.uses ↔ ∃ r ∈ x.reads, r ≠ ignore ∧ l.Names n r
  mem_defs : ∀ n, n ∈ refs.defs ↔ ∃ r ∈ x.writes, r ≠ ignore ∧ l.Names n r
  isMove : refs.isMove = (x.isMove && refs.uses.length == 1 && refs.defs.length == 1)

/-- The liveness is that of the code, with one register left out of the account. -/
structure Describes (l : Liveness) (code : Code) (ignore : Option Reg) : Prop where
  size_refs : l.refs.size = code.length
  inj : ∀ {i j : Nat} {r : Option Reg}, l.Names i r → l.Names j r → i = j
  named : ∀ r, (∃ n, l.Names n r) ↔ r ∈ code.regs ∧ r ≠ ignore
  refs : ∀ {i : Nat} {x : Instr}, code[i]? = some x → l.RefersTo ignore x (l.refsOf i)
  after : ∀ i n, (l.after i).contains n = true ↔ ∃ r, l.Names n r ∧ code.LiveAfter r i

theorem contains_foldl_insert_if (q : Nat → Bool) (list : List Nat) (s : Bitmap) (n : Nat) :
    (list.foldl (fun live r => if q r then live.insert r else live) s).contains n =
      (decide (n ∈ list) && q n || s.contains n) := by
  induction list generalizing s with
  | nil => simp
  | cons a rest ih =>
    rw [foldl_cons, ih]
    by_cases ha : q a = true
    · rw [if_pos ha, Bitmap.contains_insert]
      by_cases hn : n = a
      · subst hn
        simp [ha]
      · simp [hn]
    · rw [if_neg ha]
      by_cases hn : n = a
      · subst hn
        simp [ha]
      · simp [hn]

theorem contains_membersAt (sets : Array Bitmap) (i n : Nat) :
    (membersAt sets i).contains n = (decide (n < sets.size) && (sets.getD n .empty).contains i) := by
  unfold membersAt
  rw [contains_foldl_insert_if (fun r => (sets.getD r .empty).contains i)]
  simp

/-- The computed set of instructions after which the register number `n` is live. -/
theorem contains_liveAt {g : Flow} {refs : Array Refs} {n : Nat}
    (hg : Flow.ofCode code = .ok g) (hsize : refs.size = code.length)
    (huses : ∀ i x, code[i]? = some x → (n ∈ (refs.getD i default).uses ↔ r ∈ x.reads))
    (hdefs : ∀ i x, code[i]? = some x → (n ∈ (refs.getD i default).defs ↔ r ∈ x.writes)) (i : Nat) :
    (liveAt g refs n).contains i = true ↔ code.LiveAfter r i := by
  have hreaders : ∀ m, m ∈ ((List.range refs.size).filter fun i =>
      (refs.getD i default).uses.contains n) ↔ ∃ x, code[m]? = some x ∧ r ∈ x.reads := by
    intro m
    rw [mem_filter, mem_range, hsize]
    constructor
    · rintro ⟨hm, hu⟩
      obtain ⟨x, hx⟩ : ∃ x, code[m]? = some x := ⟨_, getElem?_eq_getElem hm⟩
      exact ⟨x, hx, (huses m x hx).mp (by simpa using hu)⟩
    · rintro ⟨x, hx, hr⟩
      exact ⟨(List.getElem?_eq_some_iff.mp hx).1, by simpa using (huses m x hx).mpr hr⟩
  have hdefines : ∀ m x, code[m]? = some x →
      ((refs.getD m default).defs.contains n = false ↔ r ∉ x.writes) := by
    intro m x hx
    rw [← hdefs m x hx]
    simp
  unfold liveAt
  constructor
  · intro h
    refine spread_sound (code.LiveAfter r) ?_ ?_ (by simp) h
    · intro m hm hd p hp
      have hf := (Flow.mem_predOf hg).mp hp
      obtain ⟨x, hx⟩ : ∃ x, code[m]? = some x := ⟨_, getElem?_eq_getElem hf.lt_right⟩
      exact .pass hf hx ((hdefines m x hx).mp hd) hm
    · intro m hm p hp
      obtain ⟨x, hx, hr⟩ := (hreaders m).mp hm
      exact .read ((Flow.mem_predOf hg).mp hp) hx hr
  · have hstart : Closed g.predOf (fun p => (refs.getD p default).defs.contains n)
        (fun m => ∃ x, code[m]? = some x ∧ r ∈ x.reads)
        ((List.range refs.size).filter fun i => (refs.getD i default).uses.contains n)
        (Bitmap.withCapacity refs.size) := by
      rintro m (hm | ⟨hm, -⟩)
      · exact Or.inl ((hreaders m).mpr hm)
      · simp at hm
    have hfuel := card_unmarked_le code.length (Bitmap.withCapacity refs.size)
    have hclosed := spread_closed (Flow.nodup_predOf hg)
      (fun m p hp => ((Flow.mem_predOf hg).mp hp).lt_left)
      (Nat.add_le_add_left (hfuel.trans hsize.ge) _) hstart
    intro h
    induction h with
    | @read i m x hf hx hr =>
      rcases hclosed m (Or.inl ⟨x, hx, hr⟩) with h | h
      · cases h
      · exact h i ((Flow.mem_predOf hg).mpr hf)
    | @pass i m x hf hx hw _ ih =>
      rcases hclosed m (Or.inr ⟨ih, (hdefines m x hx).mpr hw⟩) with h | h
      · cases h
      · exact h i ((Flow.mem_predOf hg).mpr hf)

/-- The computed liveness is that of the code. -/
theorem ofFlow_describes {g : Flow} (hg : Flow.ofCode code = .ok g)
    (ignore : Option Reg) : (ofFlow g code ignore).Describes code ignore := by
  have h0 : Numbering.Injective {} := by
    intro i j r hi
    simp [Numbering.Names] at hi
  obtain ⟨-, hinj, hlen, hrefs, hall, honly⟩ :=
    Numbering.ofCode_spec ignore h0 code
  unfold ofFlow
  generalize Numbering.ofCode ignore {} code = rn at hinj hlen hrefs hall honly
  obtain ⟨refs, num⟩ := rn
  simp only at hinj hlen hrefs hall honly ⊢
  have hnames : ∀ n r, num.Names n r → r ∈ code.regs ∧ r ≠ ignore := by
    intro n r hn
    rcases honly n r hn with ⟨i, hi⟩ | h
    · simp [Numbering.Names] at hi
    · exact h
  have hget : ∀ {i x}, code[i]? = some x →
      num.RefersTo ignore x (refs.toArray.getD i default) := by
    intro i x hx
    have hi : i < refs.length := by
      have := (List.getElem?_eq_some_iff.mp hx).1
      omega
    refine hrefs i x _ hx ?_
    simp [Array.getD_eq_getD_getElem?, getElem?_eq_getElem hi]
  refine ⟨by simpa using hlen, fun {i j r} => hinj i j r, fun r => ?_, fun {i x} hx => ?_,
    fun i n => ?_⟩
  · constructor
    · rintro ⟨n, hn⟩
      exact hnames n r hn
    · rintro ⟨hr, hri⟩
      exact hall r hr hri
  · obtain ⟨hu, hd, hm⟩ := hget hx
    exact ⟨hu.nodup, hd.nodup, hu.mem, hd.mem, hm⟩
  · simp only [after, Names, Array.getD_eq_getD_getElem?, Array.getElem?_ofFn]
    by_cases hi : i < refs.length
    · have hi' : i < refs.toArray.size := by simpa using hi
      rw [dif_pos hi', Option.getD_some, contains_membersAt]
      by_cases hn : n < num.regs.size
      · have hnr : num.Names n num.regs[n] := Numbering.names_iff.mpr ⟨hn, rfl⟩
        have hspec := contains_liveAt (n := n) (r := num.regs[n]) hg
          (size_toArray.trans hlen)
          (fun j x hx => by
            rw [(hget hx).uses.mem n]
            constructor
            · rintro ⟨r, hr, -, hn'⟩
              rw [Numbering.Names, hnr] at hn'
              cases hn'
              exact hr
            · exact fun hr => ⟨_, hr, (hnames n _ hnr).2, hnr⟩)
          (fun j x hx => by
            rw [(hget hx).defs.mem n]
            constructor
            · rintro ⟨r, hr, -, hn'⟩
              rw [Numbering.Names, hnr] at hn'
              cases hn'
              exact hr
            · exact fun hr => ⟨_, hr, (hnames n _ hnr).2, hnr⟩) i
        simp only [Array.size_ofFn, hn, decide_true, Bool.true_and, Array.getD_eq_getD_getElem?,
          Array.getElem?_ofFn, dite_true, Option.getD_some]
        rw [hspec, Array.getElem?_eq_getElem hn]
        simp
      · simp [hn]
    · have hi' : ¬ i < refs.toArray.size := by simpa using hi
      rw [dif_neg hi', Option.getD_none]
      simp only [Bitmap.contains_empty, Bool.false_eq_true, false_iff, not_exists, not_and]
      intro r _ hl
      obtain ⟨m, hf, -⟩ := Code.liveAfter_iff.mp hl
      exact hi (by have := hf.lt_left; omega)

end Liveness

end Codegen
