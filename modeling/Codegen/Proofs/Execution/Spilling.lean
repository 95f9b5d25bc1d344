import Codegen.Proofs.Execution.Patching
import Codegen.Proofs.Execution.Renaming
import Codegen.Proofs.Spill.Liveness

/-!
# Execution of spilled code

Patched code visits the instructions of the code before in the same order, with the same values and,
apart from the slots, the same memory (`Matches.run`): a spilled register is loaded from its slot
before each instruction that reads it and stored there after each one that writes it.
-/

namespace Codegen

open Execution List

variable {V A : Type*}

/-! ### Instructions that leave the slots alone -/

namespace Execution

/-- What the instruction does at these values and this memory neither depends on the given addresses
nor changes what is there. -/
def Avoids (m : Meaning V A) (S : Set A) (ins : List V) (mem : A → V) : Prop :=
  ∀ mem', (∀ a ∉ S, mem' a = mem a) →
    (m ins mem').out = (m ins mem).out ∧ (m ins mem').way = (m ins mem).way ∧
      (∀ a ∉ S, (m ins mem').mem a = (m ins mem).mem a) ∧ ∀ a ∈ S, (m ins mem').mem a = mem' a

/-- Visits of one instruction with the same values, and the same memory apart from the given
addresses. -/
structure SameVisit (S : Set A) (u u' : Visit V A) : Prop where
  place : u'.place = u.place
  ins : u'.ins = u.ins
  outs : u'.outs = u.outs
  mem : ∀ a ∉ S, u'.mem a = u.mem a

end Execution

/-- The addresses of the slots, given the frame pointer. -/
def Layout.places (addr : V → Int64 → A) (v : V) (slots : List (Option Reg × Int64)) : Set A :=
  { a | ∃ p ∈ slots, addr v p.2 = a }

/-- A configuration of the code before and one of the patched code, both at an instruction: registers
that are not spilled agree, and the slots hold the spilled ones that are live. -/
structure Matches (d : Dialect) (fp : Option Reg) (addr : V → Int64 → A) (v : V) (code : Code)
    (slots : List (Option Reg × Int64)) (bs : List Patch) (c c' : Config V A) : Prop where
  pc : c'.pc = c.pc.map (Patch.start d fp bs)
  frame : c.regs fp = v
  frame' : c'.regs fp = v
  regs : ∀ r ∈ code.regs, r ≠ fp → r ∉ slots.map Prod.fst → c'.regs r = c.regs r
  slot : ∀ i, c.pc = some i → ∀ p ∈ slots, code.LiveBefore p.1 i →
    c'.mem (addr v p.2) = c.regs p.1
  mem : ∀ a ∉ Layout.places addr v slots, c'.mem a = c.mem a

/-- What the code and its layout have to meet for patched code to run the same. -/
structure Patchable (fp : Option Reg) (code : Code) (slots : List (Option Reg × Int64)) (s : Supply)
    (bs : List Patch) (s' : Supply) : Prop extends Layout code slots s bs s' where
  label : ∀ x ∈ code, x.label ≠ none → x.reads = []
  branch : ∀ x ∈ code, x.dests ≠ [] → x.writes = []
  write : ∀ x ∈ code, fp ∉ x.writes
  labels : code.labels.Nodup
  knows : ∀ r ∈ code.regs, s.Knows r
  knows_fp : s.Knows fp
  slot_ne : ∀ p ∈ slots, p.1 ≠ fp
  nodup_off : (slots.map Prod.snd).Nodup

namespace Patchable

open Patch Layout

variable {d : Dialect} {fp r : Option Reg} {addr : V → Int64 → A} {v : V} {code : Code}
  {slots : List (Option Reg × Int64)} {s s' : Supply} {bs : List Patch} {b : Patch}
  {M : Nat → Meaning V A} {c c' : Config V A} {i : Nat} {a : StandIn}
  (h : Patchable fp code slots s bs s')
include h

theorem wellLabelled_labels : (codeAll d fp bs).labels.Nodup := by
  rw [labels_codeAll, h.instrs]
  exact h.labels

theorem mem_code (hb : b ∈ bs) : b.instr ∈ code := h.instrs ▸ mem_map_of_mem hb

theorem slot_mem (hb : b ∈ bs) (ha : a ∈ b.standIns) : a.slot ∈ slots := by
  have hmem : a.slot ∈ b.standIns.map StandIn.slot := mem_map_of_mem ha
  rw [h.slot b hb] at hmem
  exact (mem_filter.mp hmem).1

/-- A spilled register has another one standing in wherever it is mentioned. -/
theorem exists_standIn (hb : b ∈ bs) {p : Option Reg × Int64} (hp : p ∈ slots)
    (hm : b.instr.mentions p.1 = true) : ∃ a ∈ b.standIns, a.slot = p := by
  have hmem : p ∈ slots.filter fun p => b.instr.mentions p.1 := mem_filter.mpr ⟨hp, hm⟩
  rw [← h.slot b hb] at hmem
  exact mem_map.mp hmem

theorem fp_ne_temp (hb : b ∈ bs) (ha : a ∈ b.standIns) : fp ≠ some a.temp :=
  h.knows_fp.ne (h.made_temp hb ha)

/-- Slots of different registers are different. -/
theorem eq_of_off {p q : Option Reg × Int64} (hp : p ∈ slots) (hq : q ∈ slots)
    (heq : p.2 = q.2) : p = q := inj_on_of_nodup_map h.nodup_off hp hq heq

/-! ### Moves -/

theorem mem_code_regs (hb : b ∈ bs) (hr : b.instr.mentions r = true) : r ∈ code.regs :=
  Code.mem_regs.mpr ⟨b.instr, h.mem_code hb, Instr.mentions_iff.mp hr⟩

/-- Different registers of an instruction stay different. -/
theorem rename_inj (hb : b ∈ bs) {r' : Option Reg} (hr : b.instr.mentions r = true)
    (hr' : b.instr.mentions r' = true) (heq : b.rename r = b.rename r') : r = r' := by
  obtain ⟨i, hi⟩ := mem_iff_getElem?.mp hb
  rcases b.rename_eq_or r with ⟨h1, -⟩ | ⟨a, ha, hreg, h1⟩
  · rcases b.rename_eq_or r' with ⟨h2, -⟩ | ⟨a', ha', -, h2⟩
    · rw [← h1, ← h2, heq]
    · exact absurd (h1.symm.trans (heq.trans h2))
        ((h.knows r (h.mem_code_regs hb hr)).ne (h.made_temp hb ha'))
  · rw [← hreg]
    exact (h.reg_eq_of_rename h.knows hi ha hi hr' (heq.symm.trans h1)).2

/-- The frame pointer is called by its name, and nothing else is. -/
theorem rename_eq_fp_iff (hb : b ∈ bs) : b.rename r = fp ↔ r = fp := by
  have hne : fp ∉ b.standIns.map StandIn.reg := by
    intro hmem
    obtain ⟨p, hp, hpfp⟩ := mem_map.mp ((h.mem_reg hb).mp hmem).1
    exact h.slot_ne p hp hpfp
  constructor
  · intro heq
    rcases b.rename_eq_or r with ⟨h1, -⟩ | ⟨a, ha, -, h1⟩
    · rw [← h1, heq]
    · exact absurd (heq.symm.trans h1) (h.fp_ne_temp hb ha)
  · rintro rfl
    exact rename_of_not_mem hne

/-- Patched code never writes the frame pointer. -/
theorem writes_codeAll {x : Instr} (hx : x ∈ codeAll d fp bs) : fp ∉ x.writes := by
  obtain ⟨b, hb, hx⟩ := mem_flatMap.mp hx
  obtain ⟨j, hj⟩ := mem_iff_getElem?.mp hx
  rcases code_get_cases hj with ⟨-, a, ha, -, rfl⟩ | ⟨-, rfl⟩ | ⟨-, a, -, -, rfl⟩
  · exact fun hmem => h.fp_ne_temp hb ha (mem_singleton.mp hmem)
  · intro hmem
    obtain ⟨w, hw, hwfp⟩ := mem_map.mp hmem
    exact h.write b.instr (h.mem_code hb) ((h.rename_eq_fp_iff hb).mp hwfp ▸ hw)
  · exact fun hmem => by cases hmem

/-- A move of the patched code was a move. -/
theorem copies_of_body (hb : b ∈ bs) {u w : Option Reg} (hc : b.body.Copies fp u w) :
    ∃ u₀ w₀, b.rename u₀ = u ∧ b.rename w₀ = w ∧ b.instr.Copies fp u₀ w₀ := by
  obtain ⟨hu, hufp⟩ := (hc.reads u).mpr rfl
  obtain ⟨hw, hwfp⟩ := (hc.writes w).mpr rfl
  obtain ⟨u₀, hu₀, rfl⟩ := mem_map.mp hu
  obtain ⟨w₀, hw₀, rfl⟩ := mem_map.mp hw
  rw [ne_eq, h.rename_eq_fp_iff hb] at hufp hwfp
  refine ⟨u₀, w₀, rfl, rfl, hc.isMove, fun r => ⟨fun ⟨hr, hrfp⟩ => ?_, ?_⟩,
    fun r => ⟨fun ⟨hr, hrfp⟩ => ?_, ?_⟩⟩
  · exact h.rename_inj hb (Instr.mentions_iff.mpr (Or.inl hr)) (Instr.mentions_iff.mpr (Or.inl hu₀))
      ((hc.reads _).mp ⟨mem_map_of_mem hr, fun heq => hrfp ((h.rename_eq_fp_iff hb).mp heq)⟩)
  · rintro rfl
    exact ⟨hu₀, hufp⟩
  · exact h.rename_inj hb (Instr.mentions_iff.mpr (Or.inr hr)) (Instr.mentions_iff.mpr (Or.inr hw₀))
      ((hc.writes _).mp ⟨mem_map_of_mem hr, fun heq => hrfp ((h.rename_eq_fp_iff hb).mp heq)⟩)
  · rintro rfl
    exact ⟨hw₀, hwfp⟩

/-- Moves of patched code copy what they read, if those of the code before do. -/
theorem copying [Inhabited V] [DecidableEq A] (hM : Copying code fp M) (addr : V → Int64 → A) :
    Copying (codeAll d fp bs) fp (Patch.meaning M addr bs) := by
  intro p x u w hx hc regs mem n hn
  obtain ⟨i, b, j, hb, hj, rfl⟩ := exists_start hx
  have hmem := mem_of_getElem? hb
  have hmove := hc.isMove
  rcases code_get_cases hj with ⟨-, a, -, -, rfl⟩ | ⟨rfl, rfl⟩ | ⟨-, a, -, -, rfl⟩
  · cases hmove
  · obtain ⟨u₀, w₀, rfl, rfl, hc₀⟩ := h.copies_of_body hmem hc
    rw [meaning_eq hb (offset_lt d fp b) (origins_get_offset b i)]
    have hn' : (b.instr.writes.map b.rename)[n]? = some (b.rename w₀) := hn
    rw [getElem?_map, Option.map_eq_some_iff] at hn'
    obtain ⟨w', hw', heq⟩ := hn'
    have hww : w' = w₀ := h.rename_inj hmem
      (Instr.mentions_iff.mpr (Or.inr (mem_of_getElem? hw')))
      (Instr.mentions_iff.mpr (Or.inr ((hc₀.writes w₀).mpr rfl).1)) heq
    have hcopy := hM i b.instr u₀ w₀ (h.getElem?_code hb) hc₀ (regs ∘ b.rename) mem n (hww ▸ hw')
    rw [← map_map] at hcopy
    exact hcopy
  · cases hmove

/-! ### Where control goes -/

theorem inside_start (i : Nat) :
    (codeAll d fp bs).inside (start d fp bs i) = (code.inside i).map (start d fp bs) := by
  have hlen : code.length = bs.length := by rw [← h.instrs, length_map]
  unfold Code.inside
  rcases Nat.lt_or_ge i bs.length with hi | hi
  · rw [if_pos (start_lt (getElem?_eq_getElem hi)), if_pos (by omega)]
    rfl
  · rw [start_eq_length hi, if_neg (Nat.lt_irrefl _), if_neg (by omega)]
    rfl

theorem goto_dest (b : Patch) (i p n : Nat) :
    (codeAll d fp bs).goto p b.body (.dest n) =
      (code.goto i b.instr (.dest n)).map (start d fp bs) := by
  have hlab : ∀ b ∈ bs, b.instr.label ≠ none → b.instr.reads = [] := fun b hb =>
    h.label b.instr (h.mem_code hb)
  simp only [Code.goto, show b.body.dests = b.instr.dests from rfl]
  split
  · rename_i l hl
    cases hfind : code.findIdx? fun y => y.label == some l with
    | none =>
      rw [Option.map_none, ← Option.not_isSome_iff_eq_none, Option.isSome_iff_exists]
      rintro ⟨q, hq⟩
      obtain ⟨j, hj, -⟩ := (placesAt_iff hlab).mp ((findIdx?_label h.wellLabelled_labels).mp hq)
      rw [h.instrs] at hj
      rw [(findIdx?_label h.labels).mpr hj] at hfind
      cases hfind
    | some j =>
      rw [Option.map_some, findIdx?_label h.wellLabelled_labels, placesAt_iff hlab, h.instrs]
      exact ⟨j, (findIdx?_label h.labels).mp hfind, rfl⟩
  · rfl

/-! ### The instruction itself -/

/-- The registers after the loads, under the names that the instruction uses. -/
theorem loaded (hm : Matches d fp addr v code slots bs c c') (hpc : c.pc = some i)
    (hb : bs[i]? = some b) {regs : Option Reg → V}
    (hregs : regs = fetchAll addr v c'.mem
      (b.standIns.filter fun a => b.instr.reads.contains a.reg) c'.regs) :
    regs fp = v ∧ (∀ r ∈ b.instr.reads, regs (b.rename r) = c.regs r) ∧
      ∀ r ∈ code.regs, r ≠ fp → r ∉ slots.map Prod.fst → regs r = c.regs r := by
  have hmem := mem_of_getElem? hb
  have hx := h.getElem?_code hb
  have hin : ∀ {a}, a ∈ (b.standIns.filter fun a => b.instr.reads.contains a.reg) →
      a ∈ b.standIns := fun ha => (mem_filter.mp ha).1
  have hframe : regs fp = v := by
    rw [hregs, fetchAll_of_ne fun a ha => h.fp_ne_temp hmem (hin ha), hm.frame']
  have hold : ∀ r ∈ code.regs, r ≠ fp → r ∉ slots.map Prod.fst → regs r = c.regs r := by
    intro r hr hfp hslot
    rw [hregs, fetchAll_of_ne fun a ha => (h.knows r hr).ne (h.made_temp hmem (hin ha)),
      hm.regs r hr hfp hslot]
  refine ⟨hframe, fun r hr => ?_, hold⟩
  rcases b.rename_eq_or r with ⟨h1, h2⟩ | ⟨a, ha, rfl, h1⟩
  · rw [h1]
    by_cases hfp : r = fp
    · rw [hfp, hframe, hm.frame]
    · refine hold r (Code.mem_regs_of_reads hx hr) hfp fun hslot => h2 ?_
      exact (h.mem_reg hmem).mpr ⟨hslot, Instr.mentions_iff.mpr (Or.inl hr)⟩
  · have hnd : ((b.standIns.filter fun a => b.instr.reads.contains a.reg).map
        StandIn.temp).Nodup :=
      ((nodup_flatMap.mp h.nodup).1 b hmem).sublist (List.Sublist.map _ filter_sublist)
    rw [h1, hregs, fetchAll_of_mem hnd (mem_filter.mpr ⟨ha, by simpa using hr⟩)]
    exact hm.slot i hpc a.slot (h.slot_mem hmem ha) ⟨b.instr, hx, Or.inl hr⟩

theorem written (hb : bs[i]? = some b) {regs regs' : Option Reg → V} (out : Nat → V)
    (hframe : regs fp = v)
    (hregs : ∀ r ∈ code.regs, r ≠ fp → r ∉ slots.map Prod.fst → regs r = regs' r) :
    assign b.body.writes out regs fp = v ∧
      (∀ a ∈ b.standIns, a.reg ∈ b.instr.writes →
        assign b.body.writes out regs (some a.temp) = assign b.instr.writes out regs' a.reg) ∧
      ∀ r ∈ code.regs, r ≠ fp → r ∉ slots.map Prod.fst →
        assign b.body.writes out regs r = assign b.instr.writes out regs' r := by
  have hmem := mem_of_getElem? hb
  have hbody : b.body.writes = b.instr.writes.map b.rename := rfl
  rw [hbody]
  have hnot : ∀ r, r ∉ slots.map Prod.fst → r ∉ b.standIns.map StandIn.reg := fun r hr hr' =>
    hr ((h.mem_reg hmem).mp hr').1
  refine ⟨?_, fun a ha hw => ?_, fun r hr hfp hslot => ?_⟩
  · have hfp : fp ∉ slots.map Prod.fst := fun hfp => by
      obtain ⟨p, hp, heq⟩ := mem_map.mp hfp
      exact h.slot_ne p hp heq
    rw [assign_of_not_mem, hframe]
    rw [mem_map_rename (hnot fp hfp) fun a ha => h.fp_ne_temp hmem ha]
    exact h.write b.instr (h.mem_code hmem)
  · rw [← rename_of_mem (h.nodup_reg hmem) ha]
    refine assign_map out (fun w hw' heq => ?_) fun hnw => absurd hw hnw
    rw [rename_of_mem (h.nodup_reg hmem) ha] at heq
    exact (h.reg_eq_of_rename h.knows hb ha hb (Instr.mentions_iff.mpr (Or.inr hw')) heq).2.symm
  · have hne : ∀ a ∈ b.standIns, r ≠ some a.temp := fun a ha =>
      (h.knows r hr).ne (h.made_temp hmem ha)
    have hself := rename_of_not_mem (hnot r hslot)
    conv_lhs => rw [← hself]
    refine assign_map out (fun w _ heq => ?_) fun _ => ?_
    · rw [hself] at heq
      exact (rename_eq_iff (hnot r hslot) hne).mp heq
    · rw [hself]
      exact hregs r hr hfp hslot

theorem nodup_addr (haddr : Function.Injective (addr v)) (hb : b ∈ bs) :
    ((b.standIns.reverse.filter fun a => b.instr.writes.contains a.reg).map
      fun a => addr v a.off).Nodup := by
  have hoff : (b.standIns.map StandIn.off).Nodup := by
    have hslots : ((b.standIns.map StandIn.slot).map Prod.snd).Nodup := by
      rw [h.slot b hb]
      exact h.nodup_off.sublist (List.Sublist.map _ filter_sublist)
    rwa [map_map] at hslots
  have hall : (b.standIns.map fun a => addr v a.off).Nodup := by
    have := hoff.map haddr
    rwa [map_map] at this
  rw [← nodup_reverse, ← map_reverse] at hall
  exact hall.sublist (List.Sublist.map _ filter_sublist)

variable [Inhabited V] [DecidableEq A] (hm : Matches d fp addr v code slots bs c c')
  (hpc : c.pc = some i) (hb : bs[i]? = some b)
include hm hpc hb

theorem run_body
    (havoid : Avoids (M i) (places addr v slots) (b.instr.reads.map c.regs) c.mem) :
    ∃ c₁ visits, (codeAll d fp bs).run (meaning M addr bs) (b.offset d fp + 1) c' = (c₁, visits) ∧
      List.Forall₂ (SameVisit (places addr v slots)) [Code.visit M i b.instr c] (kept bs visits) ∧
      c₁.pc = (codeAll d fp bs).goto (start d fp bs i + b.offset d fp) b.body
        (M i (b.instr.reads.map c.regs) c.mem).way ∧
      c₁.regs fp = v ∧
      (∀ a ∈ b.standIns, a.reg ∈ b.instr.writes →
        c₁.regs (some a.temp) = (code.exec M i b.instr c).regs a.reg) ∧
      (∀ r ∈ code.regs, r ≠ fp → r ∉ slots.map Prod.fst →
        c₁.regs r = (code.exec M i b.instr c).regs r) ∧
      (∀ a ∉ places addr v slots, c₁.mem a = (code.exec M i b.instr c).mem a) ∧
      ∀ a ∈ places addr v slots, c₁.mem a = c'.mem a := by
  have hmem := mem_of_getElem? hb
  have hpc' : c'.pc = some (start d fp bs i) := by rw [hm.pc, hpc]; rfl
  obtain ⟨hk, hrun⟩ := run_loads M addr hb hpc' hm.frame'
    (fun a ha => h.fp_ne_temp hmem ha) (Nat.le_refl (b.offset d fp))
  have htake : (b.standIns.filter fun a => b.instr.reads.contains a.reg).take (b.offset d fp) =
      b.standIns.filter fun a => b.instr.reads.contains a.reg := by
    refine take_of_length_le ?_
    simp [offset, loads]
  rw [htake] at hrun
  obtain ⟨h1, h2, h3⟩ := h.loaded hm hpc hb rfl
  generalize fetchAll addr v c'.mem
    (b.standIns.filter fun a => b.instr.reads.contains a.reg) c'.regs = regs at hrun h1 h2 h3
  have hins : b.body.reads.map regs = b.instr.reads.map c.regs := by
    show (b.instr.reads.map b.rename).map regs = _
    rw [map_map]
    exact map_congr_left h2
  have hget := codeAll_get hb (offset_lt d fp b)
  rw [code_get_offset] at hget
  have hmean : meaning M addr bs (start d fp bs i + b.offset d fp) = M i :=
    meaning_eq hb (offset_lt d fp b) (origins_get_offset b i)
  obtain ⟨hout, hway, hmem1, hmem2⟩ := havoid c'.mem hm.mem
  obtain ⟨h4, h5, h6⟩ := h.written hb (M i (b.instr.reads.map c.regs) c.mem).out h1 h3
  refine ⟨_, _, by rw [run_succ, hrun, step_of_getElem? rfl hget], ?_, ?_, ?_, ?_, ?_, ?_, ?_⟩
  · rw [kept_append, hk, nil_append]
    have hkept : ∀ u : Visit V A, u.place = start d fp bs i + b.offset d fp →
        kept bs [u] = [{ u with place := i }] := by
      intro u hu
      simp only [kept, filterMap_cons, filterMap_nil, hu,
        originsFrom_get 0 hb (offset_lt d fp b), Nat.zero_add, origins_get_offset]
    rw [hkept _ rfl]
    refine List.Forall₂.cons ⟨rfl, hins, ?_, hm.mem⟩ List.Forall₂.nil
    unfold Code.visit
    dsimp only
    rw [hmean, hins, hout]
    simp [body]
  · unfold Code.exec
    dsimp only
    rw [hmean, hins, hway]
  · unfold Code.exec
    dsimp only
    rw [hmean, hins, hout]
    exact h4
  · unfold Code.exec
    dsimp only
    rw [hmean, hins, hout]
    exact h5
  · unfold Code.exec
    dsimp only
    rw [hmean, hins, hout]
    exact h6
  · unfold Code.exec
    dsimp only
    rw [hmean, hins]
    exact hmem1
  · unfold Code.exec
    dsimp only
    rw [hmean, hins]
    exact hmem2

end Patchable

/-! ### Runs -/

namespace Matches

open Patch Layout

variable {d : Dialect} {fp : Option Reg} {addr : V → Int64 → A} {v : V} {code : Code}
  {slots : List (Option Reg × Int64)} {s s' : Supply} {bs : List Patch} {b : Patch}
  {M : Nat → Meaning V A} {c c' : Config V A} {i : Nat}

/-- The stores of an instruction restore the match, if control goes on to another one. -/
theorem of_stores [DecidableEq A] (h : Patchable fp code slots s bs s')
    (haddr : Function.Injective (addr v)) (hm : Matches d fp addr v code slots bs c c')
    (hpc : c.pc = some i) (hb : bs[i]? = some b) {c₁ : Config V A}
    (hfp : c₁.regs fp = v)
    (htemp : ∀ a ∈ b.standIns, a.reg ∈ b.instr.writes →
      c₁.regs (some a.temp) = (code.exec M i b.instr c).regs a.reg)
    (hregs : ∀ r ∈ code.regs, r ≠ fp → r ∉ slots.map Prod.fst →
      c₁.regs r = (code.exec M i b.instr c).regs r)
    (hout : ∀ a ∉ places addr v slots, c₁.mem a = (code.exec M i b.instr c).mem a)
    (hin : ∀ a ∈ places addr v slots, c₁.mem a = c'.mem a) {as : List StandIn}
    (hsub : ∀ a ∈ as, a ∈ b.standIns)
    (has : (code.exec M i b.instr c).pc ≠ none →
      as = b.standIns.reverse.filter fun a => b.instr.writes.contains a.reg) {pc : Option Nat}
    (hpc₁ : pc = (code.exec M i b.instr c).pc.map (start d fp bs)) :
    Matches d fp addr v code slots bs (code.exec M i b.instr c)
      { pc, regs := c₁.regs, mem := storeAll addr v c₁.regs as c₁.mem } := by
  have hmem := mem_of_getElem? hb
  have hx := h.getElem?_code hb
  have hplace : ∀ {a}, a ∈ b.standIns → addr v a.off ∈ places addr v slots := fun ha =>
    ⟨_, h.slot_mem hmem ha, rfl⟩
  have hframe : (code.exec M i b.instr c).regs fp = v := by
    show assign b.instr.writes _ c.regs fp = v
    rw [assign_of_not_mem _ (h.write b.instr (h.mem_code hmem)), hm.frame]
  refine ⟨hpc₁, hframe, hfp, hregs, fun j hj p hp hlive => ?_, fun a ha => ?_⟩
  · have hafter : code.LiveAfter p.1 i :=
      Code.liveAfter_iff.mpr ⟨j, follows_of_goto h.labels hx hj, hlive⟩
    have hfull := has (by rw [hj]; simp)
    subst hfull
    dsimp only
    by_cases hw : p.1 ∈ b.instr.writes
    · obtain ⟨a, ha, rfl⟩ := h.exists_standIn hmem hp (Instr.mentions_iff.mpr (Or.inr hw))
      have hmemA : a ∈ b.standIns.reverse.filter fun a => b.instr.writes.contains a.reg :=
        mem_filter.mpr ⟨mem_reverse.mpr ha, contains_iff_mem.mpr hw⟩
      show storeAll addr v c₁.regs _ c₁.mem (addr v a.off) = _
      rw [storeAll_of_mem (h.nodup_addr haddr hmem) hmemA]
      exact htemp a ha hw
    · -- the slot of a register that is not written keeps its value
      have hne : ∀ a ∈ b.standIns.reverse.filter fun a => b.instr.writes.contains a.reg,
          addr v p.2 ≠ addr v a.off := by
        intro a ha heq
        obtain ⟨ha, haw⟩ := mem_filter.mp ha
        have hpa := h.eq_of_off hp (h.slot_mem hmem (mem_reverse.mp ha)) (haddr heq)
        rw [hpa] at hw
        exact hw (contains_iff_mem.mp haw)
      rw [storeAll_of_ne hne, hin _ ⟨p, hp, rfl⟩,
        hm.slot i hpc p hp ⟨b.instr, hx, Or.inr ⟨hw, hafter⟩⟩]
      exact (assign_of_not_mem _ hw).symm
  · dsimp only
    rw [storeAll_of_ne, hout a ha]
    exact fun a' ha' heq => ha (heq ▸ hplace (hsub a' ha'))

variable [Inhabited V] [DecidableEq A]

/-- One instruction of the code before is matched by a run of the patched code. -/
theorem step (h : Patchable fp code slots s bs s') (haddr : Function.Injective (addr v))
    (hm : Matches d fp addr v code slots bs c c')
    (havoid : ∀ i x, c.pc = some i → code[i]? = some x →
      Avoids (M i) (places addr v slots) (x.reads.map c.regs) c.mem) :
    ∃ n, 1 ≤ n ∧
      Matches d fp addr v code slots bs (code.step M c).1
        ((codeAll d fp bs).run (meaning M addr bs) n c').1 ∧
      List.Forall₂ (SameVisit (places addr v slots)) (code.step M c).2
        (kept bs ((codeAll d fp bs).run (meaning M addr bs) n c').2) := by
  cases hpc : c.pc with
  | none =>
    have hpc' : c'.pc = none := by rw [hm.pc, hpc]; rfl
    refine ⟨1, Nat.le_refl 1, ?_⟩
    rw [run_one, step_of_none hpc, step_of_none hpc']
    exact ⟨hm, List.Forall₂.nil⟩
  | some i =>
    have hpc' : c'.pc = some (start d fp bs i) := by rw [hm.pc, hpc]; rfl
    rcases Nat.lt_or_ge i bs.length with hi | hi
    · have hb := getElem?_eq_getElem hi
      generalize bs[i] = b at hb
      have hx := h.getElem?_code hb
      have hmem := mem_of_getElem? hb
      obtain ⟨c₁, visits, hrun, hvis, hpc₁, h1, h2, h3, h4, h5⟩ :=
        h.run_body hm hpc hb (havoid i b.instr hpc hx)
      rw [step_of_getElem? hpc hx]
      by_cases hfall : (M i (b.instr.reads.map c.regs) c.mem).way = .next ∧
          b.instr.fallsThrough = true
      · -- control goes on: the stores run
        rw [hfall.1, Code.goto, if_pos (show b.body.fallsThrough = true from hfall.2)] at hpc₁
        obtain ⟨hk, hrun'⟩ := run_stores M addr hb hpc₁ h1 (Nat.le_refl _)
        rw [take_length] at hrun'
        refine ⟨b.offset d fp + 1 +
          (b.standIns.reverse.filter fun a => b.instr.writes.contains a.reg).length, by omega, ?_⟩
        rw [run_add, hrun]
        dsimp only
        rw [hrun', kept_append, hk, append_nil]
        refine ⟨of_stores h haddr hm hpc hb h1 h2 h3 h4 h5
          (fun a ha => mem_reverse.mp (mem_filter.mp ha).1) (fun _ => rfl) ?_, hvis⟩
        show _ = (code.goto i b.instr (M i (b.instr.reads.map c.regs) c.mem).way).map _
        rw [hfall.1, Code.goto, if_pos hfall.2, ← h.inside_start, start_succ d fp hb, length_code,
          stores, length_map]
        congr 1
        omega
      · -- control jumps, so there are no stores, or it leaves the code
        have hgoto : c₁.pc = (code.exec M i b.instr c).pc.map (start d fp bs) := by
          rw [hpc₁]
          show _ = (code.goto i b.instr (M i (b.instr.reads.map c.regs) c.mem).way).map _
          cases hway : (M i (b.instr.reads.map c.regs) c.mem).way with
          | next =>
            have hno : ¬ b.instr.fallsThrough = true := fun hf => hfall ⟨hway, hf⟩
            rw [Code.goto, Code.goto, if_neg hno, if_neg (show ¬ b.body.fallsThrough = true from hno)]
            rfl
          | dest n => exact h.goto_dest b i _ n
        have hstores : (code.exec M i b.instr c).pc ≠ none →
            [] = b.standIns.reverse.filter fun a => b.instr.writes.contains a.reg := by
          intro hsome
          have hdests : b.instr.dests ≠ [] := by
            intro hnil
            refine hsome ?_
            show code.goto i b.instr (M i (b.instr.reads.map c.regs) c.mem).way = none
            cases hway : (M i (b.instr.reads.map c.regs) c.mem).way with
            | next => exact absurd ⟨hway, by simp [Instr.fallsThrough, hnil]⟩ hfall
            | dest n => simp [Code.goto, hnil]
          rw [h.branch b.instr (h.mem_code hmem) hdests]
          simp
        refine ⟨b.offset d fp + 1, by omega, ?_⟩
        rw [hrun]
        exact ⟨of_stores h haddr hm hpc hb h1 h2 h3 h4 h5 (fun a ha => by cases ha) hstores hgoto,
          hvis⟩
    · have hx : code[i]? = none := by
        rw [← h.instrs, getElem?_map, getElem?_eq_none hi]
        rfl
      have hx' : (codeAll d fp bs)[start d fp bs i]? = none := by
        rw [start_eq_length hi]
        exact getElem?_eq_none (Nat.le_refl _)
      refine ⟨1, Nat.le_refl 1, ?_⟩
      rw [run_one, step_of_outside hpc hx, step_of_outside hpc' hx']
      exact ⟨⟨rfl, hm.frame, hm.frame', hm.regs, (fun _ hj => by cases hj), hm.mem⟩,
        List.Forall₂.nil⟩

/-- Every run of the code before is matched by a run of the patched code. -/
theorem run (h : Patchable fp code slots s bs s') (haddr : Function.Injective (addr v))
    (hm : Matches d fp addr v code slots bs c c')
    (havoid : ∀ n i x, (code.run M n c).1.pc = some i → code[i]? = some x →
      Avoids (M i) (places addr v slots) (x.reads.map (code.run M n c).1.regs)
        (code.run M n c).1.mem) (n : Nat) :
    ∃ n', n ≤ n' ∧
      Matches d fp addr v code slots bs (code.run M n c).1
        ((codeAll d fp bs).run (meaning M addr bs) n' c').1 ∧
      List.Forall₂ (SameVisit (places addr v slots)) (code.run M n c).2
        (kept bs ((codeAll d fp bs).run (meaning M addr bs) n' c').2) := by
  induction n with
  | zero => exact ⟨0, Nat.le_refl 0, hm, List.Forall₂.nil⟩
  | succ n ih =>
    obtain ⟨n', hle, hm', hvis⟩ := ih
    obtain ⟨k, hk, hm'', hvis'⟩ := hm'.step h haddr (havoid n)
    refine ⟨n' + k, by omega, ?_⟩
    rw [run_succ, run_add, kept_append]
    exact ⟨hm'', rel_append hvis hvis'⟩

end Matches

end Codegen
