import Codegen.Proofs.Execution.Tracking

/-!
# Code with frames set up

Between the instructions of patched code stand others that only set up the frame: they refer to no
register and neither jump nor place a label. Such padded code, with every register replaced through a
map, keeps track of the code before as well, whatever its instructions do (`Padded.track`).
-/

namespace Codegen

open Execution Patch List

/-! ### Lists with something in between -/

section Count

variable {α : Type*} {f : α → Bool} {list : List α} {n : Nat} {a : α}

/-- What is left of a list keeps its order: an element has as many in front of it as were left of
those before. -/
theorem getElem?_filter_countP (hn : list[n]? = some a) (ha : f a = true) :
    (list.filter f)[(list.take n).countP f]? = some a := by
  induction list generalizing n with
  | nil => cases hn
  | cons b list ih =>
    cases n with
    | zero =>
      cases hn
      rw [filter_cons_of_pos ha]
      rfl
    | succ n =>
      rw [take_succ_cons, countP_cons, filter_cons]
      cases f b with
      | true => exact ih hn
      | false => exact ih hn

theorem countP_take_succ (hn : list[n]? = some a) :
    (list.take (n + 1)).countP f = (list.take n).countP f + if f a then 1 else 0 := by
  rw [take_add_one, hn, Option.toList_some, countP_append, countP_singleton]

end Count

/-! ### The last instruction -/

namespace Patch

variable {d : Dialect} {fp : Option Reg} {bs : List Patch} {b : Patch}

theorem length_originsFrom (i : Nat) (bs : List Patch) :
    (originsFrom i bs).length = (codeAll d fp bs).length := by
  induction bs generalizing i with
  | nil => rfl
  | cons b bs ih =>
    have hcons : codeAll d fp (b :: bs) = b.code d fp ++ codeAll d fp bs := flatMap_cons
    rw [originsFrom, hcons, length_append, length_append, ih, length_origins]

/-- An instruction that nothing stands in for is itself. -/
theorem codeAll_singleton_of_nil (hb : b.standIns = []) : codeAll d fp [b] = [b.instr] := by
  have hrename (list : List (Option Reg)) : list.map b.rename = list :=
    map_id'' (fun r => rename_of_not_mem (by simp [hb])) list
  simp [codeAll, Patch.code, loads, stores, body, hb, hrename]

end Patch

theorem Layout.standIns_eq_nil {code : Code} {slots : List (Option Reg × Int64)} {bs : List Patch}
    {s s' : Supply} {b : Patch} (hlay : Layout code slots s bs s') (hb : b ∈ bs)
    (hfree : ∀ p ∈ slots, b.instr.mentions p.1 = false) : b.standIns = [] := by
  have hslot := hlay.slot b hb
  rw [filter_eq_nil_iff.mpr fun p hp => Bool.eq_false_iff.mp (hfree p hp)] at hslot
  exact map_eq_nil_iff.mp hslot

/-- At the last instruction, if it refers to no spilled register, what it reads is as in the code
before. -/
theorem Underway.last {V A : Type*} [DecidableEq A] {d : Dialect} {fp : Option Reg}
    {addr : V → Int64 → A} {v : V} {code : Code} {slots : List (Option Reg × Int64)} {bs init : List Patch}
    {b : Patch} {s s' : Supply} {c : Config V A} {p : Nat} {regs : Option Reg → V} {mem : A → V}
    (h : Underway d fp addr v code slots bs c p regs mem) (hlay : Patchable fp code slots s bs s')
    (hbs : bs = init ++ [b]) (hfree : ∀ p ∈ slots, b.instr.mentions p.1 = false)
    (hp : p + 1 = (codeAll d fp bs).length) :
    c.pc = some init.length ∧ ∀ r ∈ b.instr.reads, regs r = c.regs r := by
  have hmem : b ∈ bs := by simp [hbs]
  have hget : bs[init.length]? = some b := by simp [hbs]
  have hnone := hlay.standIns_eq_nil hmem hfree
  have hzero : 0 < (b.code d fp).length := Nat.lt_of_le_of_lt (Nat.zero_le _) (offset_lt d fp b)
  -- the last patch is one instruction
  have hplace : p = start d fp bs init.length + 0 := by
    rw [hbs, codeAll_append, codeAll_singleton_of_nil hnone, length_append,
      length_singleton, Nat.add_right_cancel_iff] at hp
    rw [hp, Nat.add_zero, start, hbs, take_left]
  cases h with
  | @loading i j b' regs₀ hb hj hpi hpc hm hregs =>
    have hlt : j < (b'.code d fp).length := Nat.lt_of_le_of_lt hj (offset_lt d fp b')
    obtain ⟨rfl, rfl⟩ := start_inj hb hlt hget hzero (hpi.symm.trans hplace)
    refine ⟨hpc, fun r hr => ?_⟩
    rw [take_zero] at hregs
    rw [hregs]
    by_cases hfp : r = fp
    · rw [hfp]
      exact hm.frame'.trans hm.frame.symm
    · refine hm.regs r ?_ hfp fun hslot => ?_
      · rw [← hlay.instrs]
        exact mem_flatMap.mpr ⟨b.instr, mem_map_of_mem hmem, mem_append_left _ hr⟩
      · obtain ⟨q, hq, rfl⟩ := mem_map.mp hslot
        exact Bool.eq_false_iff.mp (hfree q hq) (Instr.mentions_iff.mpr (.inl hr))
  | @storing i k b' hb hk hpi hpc hm =>
    have hlt : b'.offset d fp + 1 + k < (b'.code d fp).length := by
      rw [length_stored]
      omega
    obtain ⟨-, hoff⟩ := start_inj hb hlt hget hzero (hpi.symm.trans hplace)
    omega

/-! ### The first instruction -/

section Gather

variable {V A : Type*} (φ : Option Reg → Option Reg) (addr : V → Int64 → A) (v : V)
  (slots : List (Option Reg × Int64)) (c : Config V A) {r : Option Reg} {p : Option Reg × Int64}

/-- The registers of the code before, as patched code has them through a map: each in its slot, if it
has one, and else where the map says. -/
def Patch.gather (r : Option Reg) : V :=
  match slots.find? (·.1 == r) with
  | some p => c.mem (addr v p.2)
  | none => c.regs (φ r)

theorem Patch.gather_of_not_mem (hr : r ∉ slots.map Prod.fst) :
    gather φ addr v slots c r = c.regs (φ r) := by
  have hnone : slots.find? (·.1 == r) = none := by
    rw [find?_eq_none]
    exact fun p hp heq => hr (mem_map.mpr ⟨p, hp, beq_iff_eq.mp heq⟩)
  rw [gather, hnone]

theorem Patch.gather_of_mem (hnd : (slots.map Prod.fst).Nodup) (hp : p ∈ slots) :
    gather φ addr v slots c p.1 = c.mem (addr v p.2) := by
  have hsome : (slots.find? (·.1 == p.1)).isSome = true :=
    find?_isSome.mpr ⟨p, hp, beq_self_eq_true p.1⟩
  obtain ⟨p', hp'⟩ := Option.isSome_iff_exists.mp hsome
  have heq := find?_some hp'
  rw [beq_iff_eq] at heq
  rw [gather, hp', inj_on_of_nodup_map hnd (mem_of_find?_eq_some hp') hp heq]

end Gather

/-- Patched code sets out. -/
theorem Patchable.underway {V A : Type*} [DecidableEq A] {fp : Option Reg} {code : Code}
    {slots : List (Option Reg × Int64)} {bs : List Patch} {s s' : Supply}
    (hlay : Patchable fp code slots s bs s') (d : Dialect) (addr : V → Int64 → A) (hne : bs ≠ [])
    (φ : Option Reg → Option Reg) (c : Config V A) :
    Underway d fp addr (c.regs (φ fp)) code slots bs
      ⟨some 0, gather φ addr (c.regs (φ fp)) slots c, c.mem⟩ 0 (c.regs ∘ φ) c.mem := by
  obtain ⟨b, rest, rfl⟩ := exists_cons_of_ne_nil hne
  have hmatch : Matches d fp addr (c.regs (φ fp)) code slots (b :: rest)
      ⟨some 0, gather φ addr (c.regs (φ fp)) slots c, c.mem⟩
      ⟨some (start d fp (b :: rest) 0), c.regs ∘ φ, c.mem⟩ := by
    refine ⟨rfl, gather_of_not_mem φ addr _ slots c fun hmem => ?_, rfl, fun r _ _ hr => ?_,
      fun _ _ p hp _ => ?_, fun _ _ => rfl⟩
    · obtain ⟨p, hp, heq⟩ := mem_map.mp hmem
      exact hlay.slot_ne p hp heq
    · exact (gather_of_not_mem φ addr _ slots c hr).symm
    · exact (gather_of_mem φ addr _ slots c hlay.nodup_slots hp).symm
  exact .loading (i := 0) (j := 0) rfl (Nat.zero_le _) rfl rfl hmatch rfl

/-! ### Padded code -/

variable {V A : Type*} {d : Dialect} {fp : Option Reg} {addr : V → Int64 → A} {code : Code}
  {slots : List (Option Reg × Int64)} {bs : List Patch} {s s' : Supply}
  {φ : Option Reg → Option Reg} {W : List (Instr × Option Origin)}

/-- Patched code with instructions in between that come from nowhere; the last instruction is no such
one. -/
structure Padded (d : Dialect) (fp : Option Reg) (bs : List Patch)
    (W : List (Instr × Option Origin)) : Prop where
  kept : W.filter (·.2.isSome) = (codeAll d fp bs).zip ((originsFrom 0 bs).map some)
  plain : ∀ w ∈ W, w.2 = none → ∃ text, w.1 = .plain text
  last : ∃ init x o, W = init ++ [(x, some o)]

/-- What the instructions of padded code, with registers replaced, may do. -/
def Patch.AllowsAt (φ : Option Reg → Option Reg) (fp : Option Reg) (addr : V → Int64 → A)
    (slots : List (Option Reg × Int64)) (W : List (Instr × Option Origin)) (n : Nat)
    (c : Config V A) (e : Effect V A) : Prop :=
  ∀ x o, W[n]? = some (x, o) → Allows fp addr slots o x (c.regs (φ fp)) (c.regs ∘ φ) c.mem e

/-- The steps of instructions that come from the code before, by their places there. -/
def Patch.keptSteps (W : List (Instr × Option Origin)) (steps : List (Nat × Effect V A)) :
    List (Nat × Effect V A) :=
  steps.filterMap fun p : Nat × Effect V A =>
    match W[p.1]? with
    | some (_, some (.keep i)) => some (i, p.2)
    | _ => none

/-- The place in the patched code that comes next at a place of the padded code. -/
def Patch.ahead (W : List (Instr × Option Origin)) (n : Nat) : Nat := (W.take n).countP (·.2.isSome)

namespace Padded

variable (h : Padded d fp bs W) {n n' : Nat} {x : Instr} {o : Origin} {e : Effect V A}
include h

theorem get (hn : W[n]? = some (x, some o)) :
    (codeAll d fp bs)[ahead W n]? = some x ∧ (originsFrom 0 bs)[ahead W n]? = some o := by
  have hget := getElem?_filter_countP (f := (·.2.isSome)) hn rfl
  rw [h.kept, getElem?_zip_eq_some, getElem?_map, Option.map_eq_some_iff] at hget
  obtain ⟨hx, o', ho, heq⟩ := hget
  cases heq
  exact ⟨hx, ho⟩

/-- A load or store is no move. -/
theorem isMove_eq_false (hn : W[n]? = some (x, some o)) (ho : ∀ i, o ≠ .keep i) : x.isMove = false := by
  obtain ⟨hx, ho'⟩ := h.get hn
  obtain ⟨i, b, j, hb, hj, heq⟩ := exists_start hx
  have hlt : j < (b.code d fp).length := (List.getElem?_eq_some_iff.mp hj).1
  rw [heq, originsFrom_get 0 hb hlt] at ho'
  rcases code_get_cases hj with ⟨-, a, -, -, rfl⟩ | ⟨rfl, -⟩ | ⟨-, a, -, -, rfl⟩
  · rfl
  · rw [origins_get_offset] at ho'
    exact absurd (Option.some.inj ho').symm (ho _)
  · rfl

/-- Every instruction may do something, and go on in any way. -/
theorem exists_allowsAt (φ : Option Reg → Option Reg) (slots : List (Option Reg × Int64))
    (c : Config V A) (haddr : Function.Injective (addr (c.regs (φ fp)))) (n : Nat) (way : Way) :
    ∃ e : Effect V A, e.way = way ∧ AllowsAt φ fp addr slots W n c e := by
  cases hn : W[n]? with
  | none => exact ⟨⟨fun _ => c.regs none, c.mem, way⟩, rfl, fun x o hx => by cases hn.symm.trans hx⟩
  | some w =>
    obtain ⟨x, o⟩ := w
    have hmove : ∀ o', o = some o' → (∀ i, o' ≠ .keep i) → x.isMove = false := by
      rintro o' rfl hkeep
      exact h.isMove_eq_false hn hkeep
    obtain ⟨e, hway, he⟩ := exists_allows haddr (c.regs ∘ φ) c.mem way hmove
    refine ⟨e, hway, fun y o' hy => ?_⟩
    cases hn.symm.trans hy
    exact he

/-- There is always something ahead. -/
theorem ahead_lt (hn : n < W.length) : ahead W n < (codeAll d fp bs).length := by
  obtain ⟨init, x, o, rfl⟩ := h.last
  have hlen : init.length < (init ++ [(x, some o)]).length := by simp
  have hlast : (init ++ [(x, some o)])[init.length]? = some (x, some o) := by simp
  have hlt := (List.getElem?_eq_some_iff.mp (h.get hlast).1).1
  refine Nat.lt_of_le_of_lt ?_ hlt
  rw [length_append, length_singleton] at hn
  exact (take_sublist_take_left (Nat.le_of_lt_succ hn)).countP_le

/-- From an instruction of the patched code control goes where it goes there. -/
theorem goto (hlab : (codeAll d fp bs).labels.Nodup) (hn : W[n]? = some (x, some o))
    (hgo : Code.goto (W.map Prod.fst) n x e.way = some n') :
    (codeAll d fp bs).goto (ahead W n) x e.way = some (ahead W n') ∧ n' < W.length := by
  cases hway : e.way with
  | next =>
    rw [hway, Code.goto] at hgo
    rw [Code.goto]
    split at hgo
    · rename_i hfall
      obtain ⟨rfl, hlt⟩ := inside_eq_some.mp hgo
      rw [length_map] at hlt
      have hnext : ahead W (n + 1) = ahead W n + 1 := countP_take_succ hn
      rw [if_pos hfall, hnext, inside_eq_some]
      exact ⟨⟨rfl, hnext ▸ h.ahead_lt hlt⟩, hlt⟩
    · cases hgo
  | dest m =>
    rw [hway, Code.goto] at hgo
    rw [Code.goto]
    split at hgo
    · obtain ⟨hlt, hl, -⟩ := findIdx?_eq_some_iff_getElem.mp hgo
      rw [length_map] at hlt
      rw [getElem_map, beq_iff_eq] at hl
      refine ⟨(findIdx?_label hlab).mpr ⟨W[n'].1, ?_, hl⟩, hlt⟩
      have hget : W[n']? = some W[n'] := getElem?_eq_getElem hlt
      generalize W[n'] = w at hget hl
      obtain ⟨y, _ | o'⟩ := w
      · -- what comes from nowhere has no label
        obtain ⟨text, htext⟩ := h.plain _ (mem_of_getElem? hget) rfl
        cases htext
        cases hl
      · exact (h.get hget).1
    · cases hgo

/-- Padded code, with registers replaced, keeps track of the code before: what comes from there runs
there, with the same effects. -/
theorem track [DecidableEq A] {c₀ v₀ c : Config V A} {steps : List (Nat × Effect V A)}
    (hlay : Patchable fp code slots s bs s') (hφ : Separates φ (codeAll d fp bs) fp)
    (haddr : Function.Injective (addr (c₀.regs (φ fp))))
    (hstart : Underway d fp addr (c₀.regs (φ fp)) code slots bs v₀ 0 (c₀.regs ∘ φ) c₀.mem)
    (hpc₀ : c₀.pc = some 0)
    (hrun : Code.Conduct ((W.map Prod.fst).map (Instr.mapRegs φ)) (AllowsAt φ fp addr slots W) c₀
      steps c) (hpc : c.pc = some n) :
    ∃ v regs, code.Conduct (code.Copied fp) v₀ (keptSteps W steps) v ∧
      Through φ (codeAll d fp bs) fp (ahead W n) regs c.regs ∧
      Underway d fp addr (c₀.regs (φ fp)) code slots bs v (ahead W n) regs c.mem := by
  induction hrun generalizing n with
  | start =>
    rw [hpc₀] at hpc
    cases hpc
    exact ⟨v₀, c₀.regs ∘ φ, .start, ⟨rfl, fun _ _ _ => rfl⟩, hstart⟩
  | @step steps c m y e _ hm hy he ih =>
    obtain ⟨v, regs, hv, hthrough, hunder⟩ := ih hm
    rw [getElem?_map, getElem?_map, Option.map_map, Option.map_eq_some_iff] at hy
    obtain ⟨⟨x, o⟩, hx, rfl⟩ := hy
    have hallows := he x o hx
    have hfp : c.regs (φ fp) = c₀.regs (φ fp) := hthrough.frame.trans (hunder.frame hlay)
    rw [hfp] at hallows
    have hgo : Code.goto (W.map Prod.fst) m x e.way = some n := by
      rw [← goto_mapRegs]
      exact hpc
    cases o with
    | none =>
      -- an instruction of the frame: nothing happens in the patched code
      obtain ⟨text, htext⟩ := h.plain _ (mem_of_getElem? hx) rfl
      cases htext
      obtain ⟨rfl, -⟩ := goto_of_dests_eq_nil rfl hgo
      have hahead : ahead W (m + 1) = ahead W m := countP_take_succ hx
      have hkept : keptSteps W (steps ++ [(m, e)]) = keptSteps W steps := by
        simp [keptSteps, hx]
      rw [hahead, hkept]
      exact ⟨v, regs, hv, hthrough, hunder.of_slots hlay fun q hq => hallows.slots q hq nofun⟩
    | some o =>
      obtain ⟨hcode, horigin⟩ := h.get hx
      have hlab := hlay.wellLabelled_labels (d := d)
      obtain ⟨hgo', -⟩ := h.goto hlab hx hgo
      have hallows' := hallows.congr fun r hr => hthrough.of_read hcode hr
      have hthrough' := hthrough.step hφ hlab hcode
        (hlay.writes_codeAll (mem_of_getElem? hcode)) hallows'.copy hgo'
      obtain ⟨i, y, rfl, hvpc, hy, hcopied, hnext⟩ | ⟨hno, hnext⟩ :=
        hunder.step hlay haddr hcode horigin hallows' hgo'
      · have hkept : keptSteps W (steps ++ [(m, e)]) = keptSteps W steps ++ [(i, e)] := by
          simp [keptSteps, hx]
        rw [hkept]
        exact ⟨_, _, hv.step hvpc hy hcopied, hthrough', hnext⟩
      · have hkept : keptSteps W (steps ++ [(m, e)]) = keptSteps W steps := by
          cases o with
          | keep i => exact absurd rfl (hno i)
          | load | store => simp [keptSteps, hx]
        rw [hkept]
        exact ⟨_, _, hv, hthrough', hnext⟩

/-- The last place of padded code is that of the last instruction of the patched code. -/
theorem ahead_last : ahead W (W.length - 1) + 1 = (codeAll d fp bs).length := by
  obtain ⟨init, x, o, rfl⟩ := h.last
  have hlen := congrArg List.length h.kept
  rw [filter_append, length_append, length_zip, length_map, length_originsFrom,
    Nat.min_self, ← countP_eq_length_filter] at hlen
  rw [← hlen, ahead, length_append, length_singleton, Nat.add_sub_cancel,
    take_left]
  rfl

/-- Padded code, with registers replaced, that arrives at its last instruction finds there what the code
before has in the registers that it reads, if none of them is spilled. -/
theorem arrive {c₀ v₀ c : Config V A} {steps : List (Nat × Effect V A)} {init : List Patch} {b : Patch}
    [DecidableEq A] (hlay : Patchable fp code slots s bs s') (hφ : Separates φ (codeAll d fp bs) fp)
    (haddr : Function.Injective (addr (c₀.regs (φ fp))))
    (hstart : Underway d fp addr (c₀.regs (φ fp)) code slots bs v₀ 0 (c₀.regs ∘ φ) c₀.mem)
    (hpc₀ : c₀.pc = some 0)
    (hrun : Code.Conduct ((W.map Prod.fst).map (Instr.mapRegs φ)) (AllowsAt φ fp addr slots W) c₀
      steps c) (hpc : c.pc = some (W.length - 1)) (hbs : bs = init ++ [b])
    (hfree : ∀ p ∈ slots, b.instr.mentions p.1 = false) :
    ∃ v, code.Conduct (code.Copied fp) v₀ (keptSteps W steps) v ∧ v.pc = some init.length ∧
      ∀ r ∈ b.instr.reads, c.regs (φ r) = v.regs r := by
  obtain ⟨v, regs, hv, hthrough, hunder⟩ := h.track hlay hφ haddr hstart hpc₀ hrun hpc
  obtain ⟨hvpc, hregs⟩ := hunder.last hlay hbs hfree h.ahead_last
  refine ⟨v, hv, hvpc, fun r hr => ?_⟩
  have hnone := hlay.standIns_eq_nil (b := b) (by simp [hbs]) hfree
  have hlast : (codeAll d fp bs)[ahead W (W.length - 1)]? = some b.instr := by
    have hlen := h.ahead_last
    have hcode : codeAll d fp bs = codeAll d fp init ++ [b.instr] := by
      rw [hbs, codeAll_append, codeAll_singleton_of_nil hnone]
    rw [hcode, length_append, length_singleton, Nat.add_right_cancel_iff] at hlen
    rw [hcode, hlen, getElem?_concat_length]
  rw [hthrough.of_read hlast hr, hregs r hr]

end Padded

/-! ### Functions with their frames set up -/

/-- Instructions that come from nowhere. -/
def Patch.pads (texts : List String) : List (Instr × Option Origin) :=
  texts.map fun text => (.plain text, none)

theorem Patch.map_fst_pads (texts : List String) : (pads texts).map Prod.fst = texts.map Instr.plain := by
  simp [pads, Function.comp_def]

theorem Patch.filter_pads (texts : List String) : (pads texts).filter (·.2.isSome) = [] := by
  simp [pads]

/-- The code of a function with its frame set up is padded. -/
theorem Target.exists_padded (t : Target) {f : Frame} {x y : Instr} {rest : Code}
    (hcode : codeAll d fp bs = x :: y :: rest) (hlabel : x.label = some f.label) :
    ∃ W, t.finish f (codeAll d fp bs) = W.map Prod.fst ∧ Padded d fp bs W := by
  obtain ⟨Z, hZ⟩ : ∃ Z, Z = (codeAll d fp bs).zip ((originsFrom 0 bs).map some) := ⟨_, rfl⟩
  have hfst : Z.map Prod.fst = codeAll d fp bs := by
    rw [hZ]
    exact map_fst_zip (by rw [length_map, length_originsFrom])
  have hsome : ∀ z ∈ Z, z.2.isSome = true := fun z hz => by
    rw [hZ] at hz
    obtain ⟨o, -, ho⟩ := mem_map.mp (of_mem_zip hz).2
    rw [← ho]
    rfl
  -- the instruction with the label, what is behind it, and the last instruction
  obtain ⟨z, init, w, hsplit⟩ : ∃ z init w, Z = z :: (init ++ [w]) := by
    match Z, hfst.trans hcode with
    | z :: z' :: Z', _ =>
      obtain ⟨init, w, h⟩ := eq_nil_or_concat (z' :: Z') |>.resolve_left (cons_ne_nil _ _)
      exact ⟨z, init, w, by rw [h, concat_eq_append]⟩
  rw [hsplit] at hfst hsome
  rw [forall_mem_cons, forall_mem_append, forall_mem_singleton] at hsome
  obtain ⟨hz, hinit, hw⟩ := hsome
  have hhead : z.1 = x := by
    rw [hcode] at hfst
    exact (cons_eq_cons.mp hfst).1
  let reserve := if frameBytes f = 0 then [] else [t.dialect.reserve (frameBytes f)]
  refine ⟨z :: (pads (t.dialect.enter ++ reserve) ++ init ++ pads t.dialect.leave ++ [w]), ?_, ?_, ?_, ?_⟩
  · rw [← hfst, map_cons, map_append, map_singleton, finish]
    simp [hhead, hlabel, map_fst_pads, reserve]
  · rw [← hZ, hsplit]
    simp only [filter_cons, filter_append, filter_pads, filter_eq_self.mpr hinit, hz, hw,
      if_true, filter_nil, nil_append, append_nil]
  · rintro p hp hnone
    have hpad {texts : List String} (hp : p ∈ pads texts) : ∃ text, p.1 = .plain text := by
      obtain ⟨text, -, rfl⟩ := mem_map.mp hp
      exact ⟨text, rfl⟩
    have hkept (hp : p.2.isSome = true) : False := by
      rw [hnone] at hp
      cases hp
    simp only [mem_cons, mem_append, not_mem_nil, or_false] at hp
    obtain rfl | ((hp | hp) | hp) | rfl := hp
    · exact (hkept hz).elim
    · exact hpad hp
    · exact (hkept (hinit p hp)).elim
    · exact hpad hp
    · exact (hkept hw).elim
  · obtain ⟨o, ho⟩ := Option.isSome_iff_exists.mp hw
    exact ⟨z :: (pads (t.dialect.enter ++ reserve) ++ init ++ pads t.dialect.leave), w.1, o,
      by rw [← ho]; rfl⟩

end Codegen
