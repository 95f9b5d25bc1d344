import Codegen.Proofs.Liveness
import Mathlib.Data.List.Chain

/-!
# Exact liveness

What the computed liveness of code says, in terms of the code and its flow graph alone
(`ofFlow_exact`). The marking of instructions comes to an end by itself (`Spreads`). A register is
live after an instruction just if a path leads from there to a reader of it that passes no writer
(`liveAfter_iff_leads`). Registers are listed once, in the order in which the code refers to them
first (`toList_regs_ofCode`), and counted by the instructions that refer to them (`Tallies`).
-/

namespace Codegen

open List

variable {done : List (Option Reg)}

/-! ### Paths -/

/-- Control can go from instruction `n` to instruction `m` by way of those in `via`. -/
def Flow.Leads (g : Flow) (n : Nat) (via : List Nat) (m : Nat) : Prop :=
  List.IsChain (fun i j => j ∈ g.succOf i) (n :: via ++ [m])

namespace Code

variable {code : Code} {g : Flow} {r : Option Reg} {n : Nat}

/-- Instruction `i` reads the register. -/
def ReadsAt (code : Code) (r : Option Reg) (i : Nat) : Prop := ∃ x, code[i]? = some x ∧ r ∈ x.reads

/-- Instruction `i` writes the register. -/
def WritesAt (code : Code) (r : Option Reg) (i : Nat) : Prop := ∃ x, code[i]? = some x ∧ r ∈ x.writes

/-- A register is live where a path leads to a reader and passes no writer. -/
theorem liveAfter_iff_leads (hg : Flow.ofCode code = .ok g) :
    code.LiveAfter r n ↔
      ∃ via m, g.Leads n via m ∧ code.ReadsAt r m ∧ ∀ p ∈ via, ¬ code.WritesAt r p := by
  constructor
  · intro h
    induction h with
    | @read i m x hf hx hr =>
      refine ⟨[], m, ?_, ⟨x, hx, hr⟩, by simp⟩
      exact isChain_cons_cons.mpr ⟨(Flow.mem_succOf hg).mpr hf, isChain_singleton m⟩
    | @pass i m x hf hx hw _ ih =>
      obtain ⟨via, m', hlead, hread, hvia⟩ := ih
      refine ⟨m :: via, m', ?_, hread, ?_⟩
      · exact isChain_cons_cons.mpr ⟨(Flow.mem_succOf hg).mpr hf, hlead⟩
      · rintro p hp ⟨y, hy, hwy⟩
        rcases mem_cons.mp hp with rfl | hp
        · rw [hx] at hy
          cases hy
          exact hw hwy
        · exact hvia p hp ⟨y, hy, hwy⟩
  · rintro ⟨via, m, hlead, ⟨x, hx, hr⟩, hvia⟩
    induction via generalizing n with
    | nil =>
      obtain ⟨hf, -⟩ := isChain_cons_cons.mp hlead
      exact .read ((Flow.mem_succOf hg).mp hf) hx hr
    | cons p via ih =>
      obtain ⟨hf, hlead⟩ := isChain_cons_cons.mp hlead
      have hf := (Flow.mem_succOf hg).mp hf
      have hp := getElem?_eq_getElem hf.lt_right
      refine .pass hf hp (fun hw => hvia p mem_cons_self ⟨_, hp, hw⟩) ?_
      exact ih hlead fun q hq => hvia q (mem_cons_of_mem _ hq)

end Code

/-! ### The end of the marking -/

namespace Liveness

/-- The marking of what comes before the instructions of a stack, run until the stack is empty. -/
inductive Spreads (pred : Nat → List Nat) (defines : Nat → Bool) :
    List Nat → Bitmap → Bitmap → Prop
  | done {marked : Bitmap} : Spreads pred defines [] marked marked
  | step {m : Nat} {stack : List Nat} {marked out : Bitmap}
      (h : Spreads pred defines
        ((((pred m).filter fun p => !marked.contains p).filter fun p => !defines p) ++ stack)
        (((pred m).filter fun p => !marked.contains p).foldl Bitmap.insert marked) out) :
      Spreads pred defines (m :: stack) marked out

variable {pred : Nat → List Nat} {defines : Nat → Bool} {n : Nat}

/-- One step takes an instruction off the stack and puts on it what it has just marked, so as many
steps suffice as there are instructions on the stack and not yet marked. -/
theorem spreads_spread (hnd : ∀ m, (pred m).Nodup) (hlt : ∀ m, ∀ p ∈ pred m, p < n) {fuel : Nat}
    {stack : List Nat} {marked : Bitmap}
    (hfuel : stack.length + (unmarked n marked).card ≤ fuel) :
    Spreads pred defines stack marked (spread pred defines fuel stack marked) := by
  induction fuel generalizing stack marked with
  | zero =>
    have : stack = [] := length_eq_zero_iff.mp (by omega)
    subst this
    exact .done
  | succ fuel ih =>
    cases stack with
    | nil => exact .done
    | cons m stack => exact .step (ih (length_add_card_unmarked_le hnd hlt hfuel))

/-- The instructions that read the register with the given number. -/
def readersOf (refs : Array Refs) (r : Nat) : List Nat :=
  (List.range refs.size).filter fun i => (refs.getD i default).uses.contains r

theorem spreads_liveAt {code : Code} {g : Flow} (hg : Flow.ofCode code = .ok g) {refs : Array Refs}
    (hsize : refs.size = code.length) (r : Nat) :
    Spreads g.predOf (fun p => (refs.getD p default).defs.contains r) (readersOf refs r)
      (.withCapacity refs.size) (liveAt g refs r) := by
  refine spreads_spread (n := code.length) (Flow.nodup_predOf hg)
    (fun m p hp => ((Flow.mem_predOf hg).mp hp).lt_left) ?_
  exact Nat.add_le_add_left ((card_unmarked_le _ _).trans hsize.ge) _

/-- Who is live after an instruction is read off the markings for the registers. -/
theorem contains_after_ofFlow {code : Code} {g : Flow} {ignore : Option Reg} {i : Nat}
    (hn : n < (ofFlow g code ignore).refs.size) (hi : i < (ofFlow g code ignore).regs.size) :
    ((ofFlow g code ignore).after n).contains i =
      (liveAt g (ofFlow g code ignore).refs i).contains n := by
  unfold after
  unfold ofFlow at hn hi ⊢
  dsimp only at hn hi ⊢
  rw [Array.getD_eq_getD_getElem?, Array.getElem?_ofFn, dif_pos hn, Option.getD_some,
    contains_membersAt, Array.size_ofFn, decide_eq_true hi, Bool.true_and,
    Array.getD_eq_getD_getElem?, Array.getElem?_ofFn, dif_pos hi, Option.getD_some]

end Liveness

/-! ### The order of registers -/

theorem eraseDups_concat (l : List (Option Reg)) (r : Option Reg) :
    (l ++ [r]).eraseDups = if r ∈ l then l.eraseDups else l.eraseDups ++ [r] := by
  rw [eraseDups_append]
  split
  · rename_i h
    simp [List.removeAll, h]
  · rename_i h
    simp [List.removeAll, h, eraseDups_cons]

namespace Numbering

variable {ignore : Option Reg} {n : Numbering} {acc : List Nat × Numbering}

theorem mem_regs {r : Option Reg} : r ∈ n.regs.toList ↔ ∃ i, n.Names i r := by
  rw [Array.mem_toList_iff]
  exact ⟨fun h => Array.getElem?_of_mem h, fun ⟨i, hi⟩ => Array.mem_of_getElem? hi⟩

theorem toList_regs_number (n : Numbering) (r : Option Reg) :
    (n.number r).2.regs.toList =
      if r ∈ n.regs.toList then n.regs.toList else n.regs.toList ++ [r] := by
  unfold number
  cases h : n.index? r with
  | some i =>
    obtain ⟨hi, hr, -⟩ := Array.findIdx?_eq_some_iff_getElem.mp h
    have hmem : r ∈ n.regs.toList := mem_regs.mpr ⟨i, names_iff.mpr ⟨hi, by simpa using hr⟩⟩
    rw [if_pos hmem]
  | none =>
    have hmem : r ∉ n.regs.toList := fun hr => (mem_regs.mp hr).elim (index?_eq_none.mp h)
    rw [if_neg hmem, Array.toList_push]

theorem regs_refer {r : Option Reg} (hr : r ≠ ignore) :
    (refer ignore acc r).2.regs = (acc.2.number r).2.regs := by
  unfold refer
  rw [if_neg hr]
  dsimp only
  split <;> rfl

/-- Registers are listed once, in the order in which they are referred to first. -/
theorem toList_regs_foldl_refer (h : acc.2.regs.toList = done.eraseDups) (rs : List (Option Reg)) :
    (rs.foldl (refer ignore) acc).2.regs.toList =
      (done ++ rs.filter (· ≠ ignore)).eraseDups := by
  induction rs generalizing acc done with
  | nil => simpa using h
  | cons r rs ih =>
    rw [foldl_cons]
    by_cases hr : r = ignore
    · have hstep : refer ignore acc r = acc := if_pos hr
      rw [hstep, ih h, filter_cons_of_neg (by simpa using hr)]
    · have hstep : (refer ignore acc r).2.regs.toList = (done ++ [r]).eraseDups := by
        rw [regs_refer hr, toList_regs_number, eraseDups_concat, h]
        simp only [mem_eraseDups]
      rw [ih hstep, filter_cons_of_pos (by simpa using hr), append_assoc,
        singleton_append]

theorem toList_regs_referAll (h : n.regs.toList = done.eraseDups)
    (rs : List (Option Reg)) : (referAll ignore n rs).2.regs.toList =
      (done ++ rs.filter (· ≠ ignore)).eraseDups := by
  unfold referAll
  exact toList_regs_foldl_refer h rs

theorem toList_regs_ofCode (h : n.regs.toList = done.eraseDups) (code : Code) :
    (ofCode ignore n code).2.regs.toList = (done ++ code.regs.filter (· ≠ ignore)).eraseDups := by
  induction code generalizing n done with
  | nil => simpa [ofCode, Code.regs] using h
  | cons x rest ih =>
    refine (ih (toList_regs_referAll (toList_regs_referAll h x.reads) x.writes)).trans ?_
    rw [Code.regs, Code.regs, flatMap_cons, filter_append, filter_append,
      append_assoc, append_assoc, append_assoc]

/-! ### The number of references -/

/-- Each register is counted as `c` says. -/
structure Tallies (ignore : Option Reg) (n : Numbering) (c : Option Reg → Nat) : Prop where
  size : n.count.size = n.regs.size
  named : ∀ {i r}, n.Names i r → n.count[i]? = some (c r)
  unnamed : ∀ {r}, r ≠ ignore → (∀ i, ¬ n.Names i r) → c r = 0
  ignored : ∀ i, ¬ n.Names i ignore

variable {c : Option Reg → Nat}

theorem Tallies.congr {c' : Option Reg → Nat} (h : Tallies ignore n c)
    (hc : ∀ r ≠ ignore, c' r = c r) : Tallies ignore n c' where
  size := h.size
  named {i r} hi := by
    rw [hc r fun hr => h.ignored i (hr ▸ hi)]
    exact h.named hi
  unnamed {r} hr hno := (hc r hr).trans (h.unnamed hr hno)
  ignored := h.ignored

/-- A register that gets a number has not been counted before. -/
theorem Tallies.number (h : Tallies ignore n c) {r : Option Reg} (hr : r ≠ ignore) :
    Tallies ignore (n.number r).2 c := by
  unfold Numbering.number
  cases hidx : n.index? r with
  | some i => exact h
  | none =>
    have hnew := index?_eq_none.mp hidx
    refine ⟨by simp [h.size], fun {i r'} hi => ?_, fun {r'} hr' hno => ?_, fun i hi => ?_⟩
    · rcases names_push.mp hi with hi | ⟨rfl, rfl⟩
      · have hlt : i < n.count.size := h.size.symm ▸ (names_iff.mp hi).1
        rw [Array.getElem?_push_lt hlt, ← Array.getElem?_eq_getElem hlt]
        exact h.named hi
      · rw [← h.size, Array.getElem?_push_size, h.unnamed hr hnew]
    · exact h.unnamed hr' fun i hi => hno i (names_push.mpr (Or.inl hi))
    · rcases names_push.mp hi with hi | ⟨-, hi⟩
      · exact h.ignored i hi
      · exact hr hi.symm

theorem Tallies.modify (h : Tallies ignore n c) (hn : n.Injective) {i : Nat} {r : Option Reg}
    (hi : n.Names i r) : Tallies ignore { n with count := n.count.modify i (· + 1) }
      fun r' => if r' = r then c r' + 1 else c r' where
  size := Array.size_modify.trans h.size
  named {j r'} hj := by
    have hcount := h.named hj
    rw [Array.getElem?_modify, hcount]
    by_cases hij : i = j
    · subst hij
      have hrr : r' = r := by
        rw [Names] at hi hj
        exact Option.some.inj (hj.symm.trans hi)
      simp [hrr]
    · have hrr : r' ≠ r := fun hrr => hij (hn i j r hi (hrr ▸ hj))
      simp [hij, hrr]
  unnamed {r'} hr' hno := by
    have hrr : r' ≠ r := fun hrr => hno i (hrr ▸ hi)
    rw [if_neg hrr]
    exact h.unnamed hr' hno
  ignored := h.ignored

/-- An instruction counts once for each register that it refers to. -/
theorem Tallies.refer {n₀ : Numbering} (hacc : Referred ignore n₀ done acc)
    (h : Tallies ignore acc.2 fun r => if r ∈ done then c r + 1 else c r) (r : Option Reg) :
    Tallies ignore (refer ignore acc r).2
      fun r' => if r' ∈ done ++ [r] then c r' + 1 else c r' := by
  by_cases hr : r = ignore
  · have hstep : Numbering.refer ignore acc r = acc := if_pos hr
    rw [hstep]
    refine h.congr fun r' hr' => ?_
    have hrr : r' ≠ r := fun hrr => hr' (hrr.trans hr)
    simp [hrr]
  · obtain ⟨list, m⟩ := acc
    have hnum := h.number hr
    unfold Numbering.refer
    rw [if_neg hr]
    dsimp only at hnum ⊢
    cases hm : m.number r with
    | mk i m' =>
      rw [hm] at hnum
      obtain ⟨hext, hinj, hi, -⟩ := number_spec hacc.inj hm
      have hmem : i ∈ list ↔ r ∈ done := by
        rw [(hacc.lists.mono hext hinj hacc.all).mem i]
        constructor
        · rintro ⟨r', hr', -, hi'⟩
          rw [Names] at hi hi'
          rw [hi] at hi'
          cases hi'
          exact hr'
        · exact fun hd => ⟨r, hd, hr, hi⟩
      split
      · rename_i hc
        have hd : r ∈ done := hmem.mp (by simpa using hc)
        refine hnum.congr fun r' _ => ?_
        by_cases hrr : r' = r
        · simp [hrr, hd]
        · simp [hrr]
      · rename_i hc
        have hd : r ∉ done := fun hd => hc (by simpa using hmem.mpr hd)
        refine (hnum.modify hinj hi).congr fun r' _ => ?_
        by_cases hrr : r' = r
        · simp [hrr, hd]
        · simp [hrr]

theorem Tallies.referAll (h : Tallies ignore n c) (hn : n.Injective) (rs : List (Option Reg)) :
    Tallies ignore (n.referAll ignore rs).2 fun r => if r ∈ rs then c r + 1 else c r := by
  have hfold : ∀ (rs done : List (Option Reg)) (acc : List Nat × Numbering),
      Referred ignore n done acc →
      Tallies ignore acc.2 (fun r => if r ∈ done then c r + 1 else c r) →
      Tallies ignore (rs.foldl (Numbering.refer ignore) acc).2
        fun r => if r ∈ done ++ rs then c r + 1 else c r := by
    intro rs
    induction rs with
    | nil =>
      intro done acc _ ht
      simpa using ht
    | cons r rs ih =>
      intro done acc hacc ht
      rw [append_cons]
      exact ih (done ++ [r]) _ (hacc.refer r) (Tallies.refer hacc ht r)
  have h0 : Tallies ignore n fun r => if r ∈ ([] : List (Option Reg)) then c r + 1 else c r := by
    simpa using h
  exact hfold rs [] ([], n) (referAll_spec ignore hn []) h0

/-- In the end a register is counted by the instructions that read it and those that write it. -/
theorem Tallies.ofCode (h : Tallies ignore n c) (hn : n.Injective) (code : Code) :
    Tallies ignore (ofCode ignore n code).2 fun r =>
      c r + code.countP (fun x => decide (r ∈ x.reads)) +
        code.countP fun x => decide (r ∈ x.writes) := by
  induction code generalizing n c with
  | nil => simpa [Numbering.ofCode] using h
  | cons x rest ih =>
    have hreads := h.referAll hn x.reads
    have hinj := (referAll_spec ignore hn x.reads).inj
    have hwrites := hreads.referAll hinj x.writes
    have := ih hwrites (referAll_spec ignore hinj x.writes).inj
    refine Tallies.congr this fun r _ => ?_
    rw [countP_cons, countP_cons]
    by_cases h1 : r ∈ x.reads <;> by_cases h2 : r ∈ x.writes <;> simp [h1, h2] <;> omega

end Numbering

/-! ### The whole account -/

namespace Liveness

/-- A liveness that says about code and its flow graph what there is to say. -/
structure Exact (l : Liveness) (g : Flow) (code : Code) (ignore : Option Reg) : Prop where
  size : l.liveAfter.size = code.length
  /-- The marking for a register ends by itself, and its outcome is what is told. -/
  ends : ∀ i < l.regs.size, ∃ marked,
    Spreads g.predOf (fun p => (l.refsOf p).defs.contains i) (readersOf l.refs i)
      (.withCapacity code.length) marked ∧
    ∀ n < code.length, (l.after n).contains i = marked.contains n
  /-- A register is live where a path leads to a reader and passes no writer. -/
  live : ∀ n i : Nat, (l.after n).contains i = true ↔ ∃ r, l.regs[i]? = some r ∧
    ∃ via m, g.Leads n via m ∧ code.ReadsAt r m ∧ ∀ p ∈ via, ¬ code.WritesAt r p
  /-- Every register is listed once, in the order of first references. -/
  regs : l.regs.toList = (code.regs.filter (· ≠ ignore)).eraseDups
  /-- Every register is counted by the instructions that read it and those that write it. -/
  count : ∀ (i : Nat) (r : Option Reg), l.regs[i]? = some r → l.count[i]? =
    some (code.countP (fun x => decide (r ∈ x.reads)) + code.countP fun x => decide (r ∈ x.writes))

/-- The liveness of code that has a flow graph is exact, whichever register is ignored. -/
theorem ofFlow_exact {code : Code} {g : Flow} (hg : Flow.ofCode code = .ok g) (ignore : Option Reg) :
    (ofFlow g code ignore).Exact g code ignore := by
  have hdesc := ofFlow_describes hg ignore
  have hlen : (ofFlow g code ignore).refs.size = code.length := hdesc.size_refs
  refine ⟨?_, fun i hi => ?_, fun n i => ?_, ?_, fun i r hr => ?_⟩
  · rw [← hlen]
    exact Array.size_ofFn
  · exact ⟨_, hlen ▸ spreads_liveAt hg hlen i, fun n hn => contains_after_ofFlow (hlen ▸ hn) hi⟩
  · rw [hdesc.after]
    exact exists_congr fun r => and_congr_right fun _ => Code.liveAfter_iff_leads hg
  · have hnone : ({} : Numbering).regs.toList = ([] : List (Option Reg)).eraseDups := rfl
    exact Numbering.toList_regs_ofCode hnone code
  · have h0 : Numbering.Tallies ignore {} fun _ => 0 :=
      ⟨rfl, fun hi => by simp [Numbering.Names] at hi, fun _ _ => rfl,
        fun i hi => by simp [Numbering.Names] at hi⟩
    have hinj : Numbering.Injective {} := fun i j r hi => by simp [Numbering.Names] at hi
    have hcount := (h0.ofCode hinj code).named hr
    rwa [Nat.zero_add] at hcount

/-- A loop around an instruction that reads what it writes, and an instruction behind it that
control never reaches. -/
def spinning : Code :=
  [{ text := "set &o0", writes := [some ⟨0, 2, ""⟩] },
    { text := "top:", label := some ⟨0, 0, "top"⟩ },
    { text := "load &i1, &o0", reads := [some ⟨0, 2, ""⟩, some ⟨0, 1, "fp"⟩],
      writes := [some ⟨0, 2, ""⟩] },
    { text := "loop &i0", reads := [some ⟨0, 3, ""⟩], dests := [some ⟨0, 0, "top"⟩], next := true },
    { text := "jump", dests := [some ⟨0, 1, "out"⟩] },
    { text := "set &o0", writes := [some ⟨0, 3, ""⟩] },
    { text := "out:", label := some ⟨0, 1, "out"⟩ },
    { text := "ret &i0", reads := [some ⟨0, 2, ""⟩] }]

theorem spinning_exact : ∃ g, Flow.ofCode spinning = .ok g ∧
    (ofFlow g spinning (some ⟨0, 1, "fp"⟩)).regs.toList = [some ⟨0, 2, ""⟩, some ⟨0, 3, ""⟩] ∧
    (ofFlow g spinning (some ⟨0, 1, "fp"⟩)).count[0]? = some 4 ∧
    ((ofFlow g spinning (some ⟨0, 1, "fp"⟩)).after 2).contains 1 = true := by
  have hg : Flow.ofCode spinning = .ok ⟨#[[1], [2], [3], [4, 1], [6], [6], [7], []],
      #[[], [0, 3], [1], [2], [3], [], [4, 5], [6]]⟩ := by rfl
  have h := ofFlow_exact hg (some ⟨0, 1, "fp"⟩)
  have hregs := h.regs.trans (by decide : _ = [some ⟨0, 2, ""⟩, some ⟨0, 3, ""⟩])
  have hreg : ∀ i : Nat, (ofFlow _ spinning (some ⟨0, 1, "fp"⟩)).regs[i]? =
      [some (⟨0, 2, ""⟩ : Reg), some ⟨0, 3, ""⟩][i]? := fun i => by
    rw [← Array.getElem?_toList, hregs]
  refine ⟨_, hg, hregs, h.count 0 _ (hreg 0), ?_⟩
  -- from the instruction in the loop straight to the one that closes it
  exact (h.live 2 1).mpr ⟨_, hreg 1, [], 3, by unfold Flow.Leads; decide, ⟨_, rfl, by decide⟩, by simp⟩

end Liveness

end Codegen
