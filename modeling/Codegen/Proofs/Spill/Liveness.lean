import Codegen.Proofs.Liveness
import Codegen.Proofs.Spill.Flow

/-!
# Liveness of patched code

A register that is not spilled is live in patched code only where it was live before
(`Layout.liveAfter`), and one that stands in for another is live only within the code of its own
instruction (`Layout.liveAfter_temp`).
-/

namespace Codegen

open List

/-- A register that is written at a place and read only in a stretch without labels behind it is live
in that stretch only. -/
theorem Code.LiveAfter.within {code : Code} {r : Option Reg} {p first : Nat} {x : Instr}
    (h : code.LiveAfter r p) (last : Nat) (hx : code[first]? = some x) (hw : r ∈ x.writes)
    (hread : ∀ m y, code[m]? = some y → r ∈ y.reads → first < m ∧ m ≤ last)
    (hlab : ∀ m y, first < m → m ≤ last → code[m]? = some y → y.label = none) :
    first ≤ p ∧ p < last := by
  -- control comes to a place of the stretch from the place before it only
  have hback : ∀ {p m}, code.Follows p m → first < m → m ≤ last → p + 1 = m := by
    rintro p m ⟨y, -, ⟨-, rfl, -⟩ | ⟨l, -, z, hz, hl⟩⟩ h1 h2
    · rfl
    · rw [hlab m z h1 h2 hz] at hl
      cases hl
  induction h with
  | read hf hx' hr =>
    obtain ⟨h1, h2⟩ := hread _ _ hx' hr
    have := hback hf h1 h2
    omega
  | @pass i m y hf hx' hw' hl ih =>
    have hm : m ≠ first := by
      rintro rfl
      rw [hx] at hx'
      cases hx'
      exact hw' hw
    have := hback hf (by omega) (by omega)
    omega

/-- One of two registers is written while the other is live. -/
def Code.Meet (code : Code) (r r' : Option Reg) : Prop :=
  ∃ p x, code[p]? = some x ∧
    (r ∈ x.writes ∧ code.LiveAfter r' p ∨ r' ∈ x.writes ∧ code.LiveAfter r p)

namespace Layout

open Patch

variable {code : Code} {slots : List (Option Reg × Int64)} {s s' : Supply} {bs : List Patch}
  {b b' : Patch} {d : Dialect} {fp r : Option Reg} {i j p : Nat} {a : StandIn} {x : Instr}
  (h : Layout code slots s bs s')

/-! ### Registers that are not spilled -/

/-- The register is live just where it was: within the loads if it was live before the instruction,
and from the instruction on, if control goes on from there, if it was live after it. -/
def Goes (d : Dialect) (fp r : Option Reg) (code : Code) (b : Patch) (i j : Nat) : Prop :=
  (j < b.offset d fp → code.LiveBefore r i) ∧
    (j = b.offset d fp → code.LiveAfter r i) ∧
    (b.offset d fp < j → b.instr.fallsThrough = true → code.LiveAfter r i)

section Unspilled

variable (hlab : ∀ x ∈ code, x.label ≠ none → x.reads = []) (hr : s.Knows r)
  (hslot : r ∉ slots.map Prod.fst) (hfp : r ≠ fp)
include h

theorem getElem?_code (hb : bs[i]? = some b) : code[i]? = some b.instr := by
  rw [← h.instrs, getElem?_map, hb]
  rfl

theorem goes_of_follows {m : Nat} (hlab : ∀ x ∈ code, x.label ≠ none → x.reads = [])
    (hf : (codeAll d fp bs).Follows p m)
    (hm : ∀ i b j, bs[i]? = some b → (b.code d fp)[j]? = (codeAll d fp bs)[m]? →
      m = start d fp bs i + j → (j ≤ b.offset d fp → code.LiveBefore r i) ∧
        (b.offset d fp < j → b.instr.fallsThrough = true → code.LiveAfter r i))
    (hb : bs[i]? = some b) (hj : j < (b.code d fp).length) (hp : p = start d fp bs i + j) :
    Goes d fp r code b i j := by
  subst hp
  have hoff := offset_lt d fp b
  obtain ⟨x, hx, hcase⟩ := hf
  rw [codeAll_get hb hj] at hx
  -- control that leaves the instruction for one before which the register was live
  have hleave : ∀ i', code.Follows i i' → code.LiveBefore r i' → code.LiveAfter r i :=
    fun i' h1 h2 => Code.liveAfter_iff.mpr ⟨i', h1, h2⟩
  rcases hcase with ⟨hfall, rfl, hlt⟩ | ⟨l, hl, hplace⟩
  · have hbody : j = b.offset d fp → b.instr.fallsThrough = true := by
      rintro rfl
      rw [code_get_offset] at hx
      cases hx
      exact hfall
    rcases Nat.lt_or_ge (j + 1) (b.code d fp).length with hj' | hj'
    · obtain ⟨h1, h2⟩ := hm i b (j + 1) hb (codeAll_get hb hj').symm (Nat.add_assoc _ _ _)
      exact ⟨fun hlt => h1 hlt, fun heq => h2 (by omega) (hbody heq), fun hgt => h2 (by omega)⟩
    · -- the last place: control goes on to the next instruction
      have hnext : start d fp bs i + j + 1 = start d fp bs (i + 1) := by
        rw [start_succ d fp hb]
        omega
      have hi : i + 1 < bs.length := by
        by_contra hi
        rw [hnext, start_eq_length (by omega)] at hlt
        omega
      have hb' : bs[i + 1]? = some bs[i + 1] := getElem?_eq_getElem hi
      have h0 : 0 < (bs[i + 1].code d fp).length := Nat.lt_of_le_of_lt (Nat.zero_le _)
        (offset_lt d fp _)
      have hget := codeAll_get hb' h0
      rw [Nat.add_zero, ← hnext] at hget
      have hbefore := (hm (i + 1) _ 0 hb' hget.symm hnext).1 (Nat.zero_le _)
      have hfollow : b.instr.fallsThrough = true → code.Follows i (i + 1) := fun hfall' =>
        ⟨b.instr, h.getElem?_code hb, Or.inl ⟨hfall', rfl, by rw [← h.instrs, length_map]; exact hi⟩⟩
      exact ⟨fun hlt => by omega, fun heq => hleave _ (hfollow (hbody heq)) hbefore,
        fun _ hfall' => hleave _ (hfollow hfall') hbefore⟩
  · -- a jump: from the instruction itself to the beginning of another one
    have hjoff : j = b.offset d fp := by
      by_contra hne
      rw [dests_eq_nil hx hne] at hl
      cases hl
    subst hjoff
    rw [code_get_offset] at hx
    cases hx
    have hlab' : ∀ b ∈ bs, b.instr.label ≠ none → b.instr.reads = [] := fun b hb =>
      hlab b.instr (h.instrs ▸ mem_map_of_mem hb)
    obtain ⟨i', hi', rfl⟩ := (placesAt_iff hlab').mp hplace
    rw [h.instrs] at hi'
    have hi'' := hi'
    obtain ⟨y, hy, -⟩ := hi''
    rw [← h.instrs, getElem?_map, Option.map_eq_some_iff] at hy
    obtain ⟨b', hb', -⟩ := hy
    have h0 : 0 < (b'.code d fp).length := Nat.lt_of_le_of_lt (Nat.zero_le _) (offset_lt d fp _)
    have hget := codeAll_get hb' h0
    rw [Nat.add_zero] at hget
    have hbefore := (hm i' b' 0 hb' hget.symm rfl).1 (Nat.zero_le _)
    have hafter := hleave i' ⟨b.instr, h.getElem?_code hb, Or.inr ⟨l, hl, hi'⟩⟩ hbefore
    exact ⟨fun hlt => absurd hlt (Nat.lt_irrefl _), fun _ => hafter,
      fun hgt => absurd hgt (Nat.lt_irrefl _)⟩

include hr hslot

theorem mem_map_rename_iff (hb : b ∈ bs) {list : List (Option Reg)} :
    r ∈ list.map b.rename ↔ r ∈ list :=
  Patch.mem_map_rename (fun hreg => hslot ((h.mem_reg hb).mp hreg).1)
    fun _ ha => hr.ne (h.made_temp hb ha)

include hfp

theorem liveBefore_of_goes (hb : bs[i]? = some b) (hx : (b.code d fp)[j]? = some x)
    (hl : r ∈ x.reads ∨ r ∉ x.writes ∧ Goes d fp r code b i j) :
    (j ≤ b.offset d fp → code.LiveBefore r i) ∧
      (b.offset d fp < j → b.instr.fallsThrough = true → code.LiveAfter r i) := by
  have hmem := mem_of_getElem? hb
  rcases code_get_cases hx with ⟨hj, a, ha, -, rfl⟩ | ⟨rfl, rfl⟩ | ⟨hj, a, ha, -, rfl⟩
  · refine ⟨fun _ => ?_, fun hgt => by omega⟩
    rcases hl with hl | ⟨-, hl⟩
    · exact absurd (mem_singleton.mp hl) hfp
    · exact hl.1 hj
  · refine ⟨fun _ => ⟨b.instr, h.getElem?_code hb, ?_⟩, fun hgt => by omega⟩
    rcases hl with hl | ⟨hw, hl⟩
    · exact Or.inl ((h.mem_map_rename_iff hr hslot hmem).mp hl)
    · exact Or.inr ⟨fun hw' => hw ((h.mem_map_rename_iff hr hslot hmem).mpr hw'), hl.2.1 rfl⟩
  · refine ⟨fun hle => by omega, fun _ hfall => ?_⟩
    rcases hl with hl | ⟨-, hl⟩
    · rcases mem_cons.mp hl with hl | hl
      · exact absurd hl (hr.ne (h.made_temp hmem ha))
      · exact absurd (mem_singleton.mp hl) hfp
    · exact hl.2.2 hj hfall

include hlab

/-- A register that is not spilled is live only where it was live. -/
theorem liveAfter (hl : (codeAll d fp bs).LiveAfter r p) : ∀ {i b j}, bs[i]? = some b →
    j < (b.code d fp).length → p = start d fp bs i + j → Goes d fp r code b i j := by
  induction hl with
  | read hf hx hread =>
    intro i b j hb hj hp
    refine h.goes_of_follows hlab hf (fun i' b' j' hb' hx' _ => ?_) hb hj hp
    rw [hx] at hx'
    exact h.liveBefore_of_goes hr hslot hfp hb' hx' (Or.inl hread)
  | pass hf hx hw _ ih =>
    intro i b j hb hj hp
    refine h.goes_of_follows hlab hf (fun i' b' j' hb' hx' hm => ?_) hb hj hp
    rw [hx] at hx'
    exact h.liveBefore_of_goes hr hslot hfp hb' hx'
      (Or.inr ⟨hw, ih hb' (List.getElem?_eq_some_iff.mp hx').1 hm⟩)

/-- What is live at the entry was live there. -/
theorem liveBefore_entry (hl : (codeAll d fp bs).LiveBefore r 0) : code.LiveBefore r 0 := by
  obtain ⟨x, hx, hcase⟩ := hl
  obtain ⟨i, b, j, hb, hj, h0⟩ := exists_start hx
  have hjlt := (List.getElem?_eq_some_iff.mp hj).1
  have hpos : 0 < bs.length := Nat.lt_of_le_of_lt (Nat.zero_le i) (List.getElem?_eq_some_iff.mp hb).1
  have hb0 : bs[0]? = some bs[0] := getElem?_eq_getElem hpos
  obtain ⟨rfl, rfl⟩ := start_inj hb hjlt hb0
    (Nat.lt_of_le_of_lt (Nat.zero_le _) (offset_lt d fp _)) h0.symm
  refine (h.liveBefore_of_goes hr hslot hfp hb hj (hcase.imp_right ?_)).1 (Nat.zero_le _)
  exact And.imp_right fun hl => h.liveAfter hlab hr hslot hfp hl hb hjlt rfl

end Unspilled

/-! ### Registers that stand in for others -/

section Temporary

variable {a' : StandIn} {i' : Nat}
include h

theorem mentions_of_mem (hb : b ∈ bs) (ha : a ∈ b.standIns) : b.instr.mentions a.reg = true :=
  ((h.mem_reg hb).mp (mem_map_of_mem ha)).2

/-- A register stands in at one instruction only, for one register. -/
theorem temp_inj (hb : bs[i]? = some b) (ha : a ∈ b.standIns) (hb' : bs[i']? = some b')
    (ha' : a' ∈ b'.standIns) (heq : a.temp = a'.temp) : i = i' ∧ a = a' := by
  obtain ⟨hin, hout⟩ := nodup_flatMap.mp h.nodup
  have hne : ∀ {i i' : Nat} {b b' : Patch} {a a' : StandIn}, bs[i]? = some b → a ∈ b.standIns →
      bs[i']? = some b' → a' ∈ b'.standIns → a.temp = a'.temp → ¬ i < i' := by
    intro i i' b b' a a' hb ha hb' ha' heq hlt
    obtain ⟨hi, rfl⟩ := List.getElem?_eq_some_iff.mp hb
    obtain ⟨hi', rfl⟩ := List.getElem?_eq_some_iff.mp hb'
    exact pairwise_iff_getElem.mp hout i i' hi hi' hlt (mem_map_of_mem ha)
      (heq ▸ mem_map_of_mem ha')
  have hii : i = i' := by
    have h1 := hne hb ha hb' ha' heq
    have h2 := hne hb' ha' hb ha heq.symm
    omega
  subst hii
  rw [hb] at hb'
  cases hb'
  exact ⟨rfl, inj_on_of_nodup_map (hin b (mem_of_getElem? hb)) ha ha' heq⟩

/-- The place where a register that stands in is written first: its load, or the instruction. -/
theorem exists_birth (d : Dialect) (fp : Option Reg) (hb : bs[i]? = some b) (ha : a ∈ b.standIns) : ∃ q x,
    (b.code d fp)[q]? = some x ∧ some a.temp ∈ x.writes ∧
      (q < b.offset d fp ∨ q = b.offset d fp ∧ a.reg ∉ b.instr.reads) := by
  have hmem := mem_of_getElem? hb
  by_cases hread : a.reg ∈ b.instr.reads
  · obtain ⟨q, hq⟩ := mem_iff_getElem?.mp
      (mem_loads.mpr ⟨a, ha, hread, rfl⟩ : d.loadSlot fp a.off a.temp ∈ b.loads d fp)
    have hlt : q < b.offset d fp := (List.getElem?_eq_some_iff.mp hq).1
    refine ⟨q, d.loadSlot fp a.off a.temp, ?_, mem_singleton_self _, Or.inl hlt⟩
    rw [Patch.code, getElem?_append_left hlt, hq]
  · have hwrite : a.reg ∈ b.instr.writes :=
      (Instr.mentions_iff.mp (h.mentions_of_mem hmem ha)).resolve_left hread
    exact ⟨_, b.body, code_get_offset b,
      mem_map.mpr ⟨a.reg, hwrite, rename_of_mem (h.nodup_reg hmem) ha⟩, Or.inr ⟨rfl, hread⟩⟩

/-- What stands in for another register occurs in the code. -/
theorem temp_mem_regs {t : Reg} (ht : t ∈ temps bs) : some t ∈ (codeAll d fp bs).regs := by
  obtain ⟨b, hb, a, ha, rfl⟩ := mem_temps.mp ht
  obtain ⟨i, hi⟩ := mem_iff_getElem?.mp hb
  obtain ⟨q, x, hx, hw, -⟩ := h.exists_birth d fp hi ha
  exact Code.mem_regs.mpr ⟨x, mem_flatMap.mpr ⟨b, hb, mem_of_getElem? hx⟩, Or.inr hw⟩

variable (hcode : ∀ r ∈ code.regs, s.Knows r) (hfp : s.Knows fp)
include hcode

/-- A register of the instruction for which `a` stands in. -/
theorem reg_eq_of_rename (hb : bs[i]? = some b) (ha : a ∈ b.standIns) (hb' : bs[i']? = some b')
    (hr : b'.instr.mentions r = true) (heq : b'.rename r = some a.temp) : i' = i ∧ a.reg = r := by
  have hmem' := mem_of_getElem? hb'
  rcases b'.rename_eq_or r with ⟨h1, -⟩ | ⟨a', ha', hreg, h1⟩
  · have hknown := hcode r (by
      rw [← h.instrs]
      exact Code.mem_regs.mpr ⟨b'.instr, mem_map_of_mem hmem', Instr.mentions_iff.mp hr⟩)
    exact absurd (h1.symm.trans heq) (hknown.ne (h.made_temp (mem_of_getElem? hb) ha))
  · obtain ⟨rfl, rfl⟩ := h.temp_inj hb' ha' hb ha (Option.some.inj (h1.symm.trans heq))
    exact ⟨rfl, hreg⟩

theorem writes_temp (hb : bs[i]? = some b) (ha : a ∈ b.standIns) (hb' : bs[i']? = some b')
    (hx : (b'.code d fp)[j]? = some x) (hw : some a.temp ∈ x.writes) : i' = i := by
  rcases code_get_cases hx with ⟨-, a', ha', -, rfl⟩ | ⟨-, rfl⟩ | ⟨-, a', -, -, rfl⟩
  · have heq := Option.some.inj (mem_singleton.mp hw)
    exact (h.temp_inj hb' ha' hb ha heq.symm).1
  · obtain ⟨r, hr, heq⟩ := mem_map.mp hw
    exact (h.reg_eq_of_rename hcode hb ha hb' (Instr.mentions_iff.mpr (Or.inr hr)) heq).1
  · cases hw

include hfp

theorem reads_temp (hb : bs[i]? = some b) (ha : a ∈ b.standIns) (hb' : bs[i']? = some b')
    (hx : (b'.code d fp)[j]? = some x) (hr : some a.temp ∈ x.reads) :
    i' = i ∧ (j = b'.offset d fp ∧ a.reg ∈ b'.instr.reads ∨ b'.offset d fp < j) := by
  have hne := hfp.ne (h.made_temp (mem_of_getElem? hb) ha)
  rcases code_get_cases hx with ⟨-, a', -, -, rfl⟩ | ⟨hj, rfl⟩ | ⟨hj, a', ha', -, rfl⟩
  · exact absurd (mem_singleton.mp hr).symm hne
  · obtain ⟨r, hr, heq⟩ := mem_map.mp hr
    obtain ⟨h1, rfl⟩ := h.reg_eq_of_rename hcode hb ha hb' (Instr.mentions_iff.mpr (Or.inl hr)) heq
    exact ⟨h1, Or.inl ⟨hj, hr⟩⟩
  · rcases mem_cons.mp hr with heq | heq
    · exact ⟨(h.temp_inj hb' ha' hb ha (Option.some.inj heq).symm).1, Or.inr hj⟩
    · exact absurd (mem_singleton.mp heq).symm hne

/-- A register that stands in is live within the code of its instruction only, from where it is
written. -/
theorem liveAfter_temp (hlab : ∀ x ∈ code, x.label ≠ none → x.reads = []) (hb : bs[i]? = some b)
    (ha : a ∈ b.standIns) (hl : (codeAll d fp bs).LiveAfter (some a.temp) p) :
    (∃ j < (b.code d fp).length, p = start d fp bs i + j) ∧
      ∃ q x, q ≤ p ∧ (codeAll d fp bs)[q]? = some x ∧ some a.temp ∈ x.writes := by
  obtain ⟨q, x, hq, hw, hbirth⟩ := h.exists_birth d fp hb ha
  have hqlt := (List.getElem?_eq_some_iff.mp hq).1
  have hoff := offset_lt d fp b
  have hin := hl.within (start d fp bs i + ((b.code d fp).length - 1))
    (codeAll_get hb hqlt ▸ hq) hw (fun m y hy hread => ?_) fun m y h1 h2 hy => ?_
  · exact ⟨⟨p - start d fp bs i, by omega, by omega⟩,
      ⟨_, x, hin.1, codeAll_get hb hqlt ▸ hq, hw⟩⟩
  · obtain ⟨i', b', j, hb', hj, rfl⟩ := exists_start hy
    obtain ⟨rfl, hcase⟩ := h.reads_temp hcode hfp hb ha hb' hj hread
    rw [hb] at hb'
    cases hb'
    have hjlt := (List.getElem?_eq_some_iff.mp hj).1
    have hqj : q < j := by
      rcases hcase with ⟨hj', hread'⟩ | hj'
      · rcases hbirth with hq' | ⟨-, hq'⟩
        · omega
        · exact absurd hread' hq'
      · rcases hbirth with hq' | ⟨hq', -⟩ <;> omega
    omega
  · -- a label stands at the beginning of the code of its instruction
    obtain ⟨j, rfl⟩ : ∃ j, m = start d fp bs i + j := ⟨m - start d fp bs i, by omega⟩
    have hjlt : j < (b.code d fp).length := by omega
    rw [codeAll_get hb hjlt] at hy
    by_cases hj : j = b.offset d fp
    · subst hj
      by_contra hlabel
      rw [code_get_offset] at hy
      cases hy
      have hzero : b.offset d fp = 0 :=
        offset_eq_zero (hlab b.instr (mem_of_getElem? (h.getElem?_code hb)) hlabel)
      omega
    · exact label_eq_none hy hj

/-- A register that stands in is not live at the entry. -/
theorem not_liveBefore_temp (hlab : ∀ x ∈ code, x.label ≠ none → x.reads = [])
    (hb : bs[i]? = some b) (ha : a ∈ b.standIns) :
    ¬ (codeAll d fp bs).LiveBefore (some a.temp) 0 := by
  rintro ⟨x, hx, hr | ⟨hw, hl⟩⟩
  · obtain ⟨i', b', j, hb', hj, h0⟩ := exists_start hx
    obtain ⟨rfl, ⟨hj', hread⟩ | hj'⟩ := h.reads_temp hcode hfp hb ha hb' hj hr
    · rw [hb] at hb'
      cases hb'
      have hload := length_pos_of_mem
        (mem_loads.mpr ⟨a, ha, hread, rfl⟩ : d.loadSlot fp a.off a.temp ∈ b.loads d fp)
      have : b.offset d fp = (b.loads d fp).length := rfl
      omega
    · omega
  · obtain ⟨-, q, y, hq, hy, hw'⟩ := h.liveAfter_temp hcode hfp hlab hb ha hl
    rw [Nat.le_zero.mp hq, hx] at hy
    cases hy
    exact hw hw'

/-! ### Registers that meet -/

variable (hlab : ∀ x ∈ code, x.label ≠ none → x.reads = [])
include hlab

/-- What is written or live at a place together with a register that stands in is so within the code
of its instruction. -/
theorem meet_place (hb : bs[i]? = some b) (ha : a ∈ b.standIns)
    (hx : (codeAll d fp bs)[p]? = some x)
    (hm : some a.temp ∈ x.writes ∨ (codeAll d fp bs).LiveAfter (some a.temp) p) :
    ∃ j, (b.code d fp)[j]? = some x ∧ p = start d fp bs i + j := by
  obtain ⟨i', b', j, hb', hj, rfl⟩ := exists_start hx
  have hii : i' = i := by
    rcases hm with hm | hm
    · exact h.writes_temp hcode hb ha hb' hj hm
    · obtain ⟨⟨j', hj', heq⟩, -⟩ := h.liveAfter_temp hcode hfp hlab hb ha hm
      exact (start_inj hb' (List.getElem?_eq_some_iff.mp hj).1 hb hj' heq).1
  subst hii
  rw [hb] at hb'
  cases hb'
  exact ⟨j, hj, rfl⟩

/-- Registers that stand in at different instructions do not meet. -/
theorem eq_of_meet_temp (hb : bs[i]? = some b) (ha : a ∈ b.standIns) (hb' : bs[i']? = some b')
    (ha' : a' ∈ b'.standIns) (hm : (codeAll d fp bs).Meet (some a.temp) (some a'.temp)) :
    i = i' := by
  obtain ⟨p, x, hx, hm⟩ := hm
  obtain ⟨j, hj, hp⟩ := h.meet_place hcode hfp hlab hb ha hx (hm.imp And.left And.right)
  obtain ⟨j', hj', hp'⟩ := h.meet_place hcode hfp hlab hb' ha' hx
    (hm.symm.imp And.left And.right)
  exact (start_inj hb (List.getElem?_eq_some_iff.mp hj).1 hb' (List.getElem?_eq_some_iff.mp hj').1
    (hp.symm.trans hp')).1

/-- A register that is not spilled meets one that stands in only if the instruction refers to it or
it was live after the instruction. -/
theorem used_of_meet_temp (hr : s.Knows r) (hslot : r ∉ slots.map Prod.fst) (hne : r ≠ fp)
    (hb : bs[i]? = some b) (ha : a ∈ b.standIns)
    (hm : (codeAll d fp bs).Meet (some a.temp) r) :
    r ∈ b.instr.reads ∨ r ∈ b.instr.writes ∨ code.LiveAfter r i := by
  have hmem := mem_of_getElem? hb
  obtain ⟨p, x, hx, hm⟩ := hm
  obtain ⟨j, hj, rfl⟩ := h.meet_place hcode hfp hlab hb ha hx (hm.imp And.left And.right)
  rcases hm with ⟨hw, hl⟩ | ⟨hw, -⟩
  · obtain ⟨h1, h2, -⟩ :=
      h.liveAfter hlab hr hslot hne hl hb (List.getElem?_eq_some_iff.mp hj).1 rfl
    rcases code_get_cases hj with ⟨hlt, -⟩ | ⟨heq, -⟩ | ⟨-, a', -, -, rfl⟩
    · obtain ⟨y, hy, hlive⟩ := h1 hlt
      rw [h.getElem?_code hb] at hy
      cases hy
      exact hlive.imp id fun h3 => Or.inr h3.2
    · exact Or.inr (Or.inr (h2 heq))
    · cases hw
  · rcases code_get_cases hj with ⟨-, a', ha', -, rfl⟩ | ⟨-, rfl⟩ | ⟨-, a', -, -, rfl⟩
    · exact absurd (mem_singleton.mp hw) (hr.ne (h.made_temp hmem ha'))
    · exact Or.inr (Or.inl ((h.mem_map_rename_iff hr hslot hmem).mp hw))
    · cases hw

end Temporary

end Layout

end Codegen
