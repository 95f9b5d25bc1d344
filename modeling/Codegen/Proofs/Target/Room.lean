import Codegen.Proofs.Allocation.Stretch
import Codegen.Proofs.Selection.Instance
import Codegen.Proofs.Selection.Meaning
import Codegen.Proofs.Target.Calls

/-!
# Machines with room

A machine is apt (`Target.Apt`) if its templates cover everything and are tidy, and if it has enough
registers: beside those that templates and calls name, some are left for the few virtual ones of an
instruction (`Target.Apt.roomy_of_modest`). Both machines are (`Arch.apt_make`).
-/

namespace Codegen

open Allocation List

/-- The templates cover everything and name only some of the machine's registers, and there are
enough of them: beside `names`, and beside all registers with a part in calls. The supply has handed
out the registers of the machine. -/
structure Target.Apt (t : Target) (base : Supply) (names : List String) : Prop where
  covers : t.catalog.Covers
  tidy : ∀ tpl ∈ t.catalog.templates, tpl.Tidy t.catalog.reg? names
  nodup : t.catalog.regs.Nodup
  machine : ∀ r ∈ t.catalog.regs, ∃ q, r = some q ∧ t.catalog.isMachine q = true
  found : ∀ q ∈ t.catalog.machine, t.catalog.isMachine q = true
  knows : ∀ q, t.catalog.isMachine q = true → base.Knows (some q)
  fp_isMachine : t.catalog.isMachine t.fp = true
  fp_not_mem : some t.fp ∉ t.catalog.regs
  named : ∀ n ∈ names, t.catalog.reg? n ∈ t.catalog.regs
  passing : ∀ r ∈ t.catalog.params ++ [some t.link], r ∈ names.map t.catalog.reg?
  keeping : ∀ r ∈ t.catalog.calleeSave ++ [t.catalog.result], r ∈ t.catalog.regs
  room : names.length + 4 ≤ t.catalog.regs.length
  room_calls : t.catalog.params.length + t.catalog.calleeSave.length + 2 ≤ t.catalog.regs.length

/-! ### The two machines -/

namespace Arch

/-- The names of the registers that a call may change. -/
def callerSaveNames : Arch → List String
  | .amd64 => Target.Amd64.callerSaveNames
  | .arm64 => Target.Arm64.callerSaveNames

open TemplateSource in
theorem isTidy_and_isConfined_of_mem {a : Arch} : ∀ src ∈ a.sources,
    isTidy a.callerSaveNames src.pattern src.outline = true ∧
      isConfined src.pattern src.outline = true := by
  refine isTidy_and_isConfined_of_isProper ?_
  -- the texts are written out before anything is computed
  cases a with
  | amd64 =>
    simp only [sources, Target.Amd64.values, Target.Amd64.actions, Target.Amd64.arith,
      Target.Amd64.shifts, Target.Amd64.jumps, Target.Amd64.arithTemplates,
      Target.Amd64.shiftTemplates, Target.Amd64.jumpTemplates, Target.Amd64.callOp, value, wideValue,
      action, wideAction, op, mv, br, chars, flatMap_cons, flatMap_nil, map_append,
      map_cons, map_nil, Skeleton.toList_marked, String.toList_append]
    decide +kernel
  | arm64 =>
    simp only [sources, Target.Arm64.values, Target.Arm64.actions, Target.Arm64.arith,
      Target.Arm64.arithImm, Target.Arm64.conds, Target.Arm64.jumpTemplates, Target.Arm64.callOp, value,
      action, op, mv, br, chars, flatMap_cons, flatMap_nil, map_append, map_cons,
      map_nil, Skeleton.toList_marked, String.toList_append]
    decide +kernel

variable {a : Arch} {s : Supply}

theorem tidy_of_mem {tpl : Template} (h : tpl ∈ (a.make s).1.catalog.templates) :
    tpl.Tidy (a.make s).1.catalog.reg? a.callerSaveNames := by
  obtain ⟨src, hsrc, hmake⟩ := exists_source h
  exact Template.tidy_of_isTidy (fun n r hr => (reg?_make.mp hr).2) hmake
    (isTidy_and_isConfined_of_mem src hsrc).1

theorem confined_of_mem {tpl : Template} (h : tpl ∈ (a.make s).1.catalog.templates) :
    tpl.Confined := by
  obtain ⟨src, hsrc, hmake⟩ := exists_source h
  exact Template.confined_of_isConfined (fun n r hr => (reg?_make.mp hr).2) hmake
    (isTidy_and_isConfined_of_mem src hsrc).2

theorem length_regs_make (a : Arch) (s : Supply) :
    (a.make s).1.catalog.regs.length = a.regNames.length := by
  rw [(describes_make a s).regs, length_map, ← length_map (f := Reg.name),
    Supply.map_name_namedRegs]

theorem reg?_mem_regs {n : String} (h : n ∈ a.regNames) :
    (a.make s).1.catalog.reg? n ∈ (a.make s).1.catalog.regs := by
  rw [← s.map_name_namedRegs a.regNames] at h
  obtain ⟨r, hr, rfl⟩ := mem_map.mp h
  have hmem : r ∈ (a.make s).1.catalog.machine := by
    rw [machine_make, Supply.namedRegs_append]
    exact mem_append_left _ hr
  rw [reg?_make.mpr ⟨hmem, rfl⟩, (describes_make a s).regs]
  exact mem_map_of_mem hr

theorem exists_of_mem_regs {r : Option Reg} (h : r ∈ (a.make s).1.catalog.regs) :
    ∃ q, r = some q ∧ q ∈ (a.make s).1.catalog.machine ∧ q.name ∈ a.regNames := by
  rw [(describes_make a s).regs] at h
  obtain ⟨q, hq, rfl⟩ := mem_map.mp h
  refine ⟨q, rfl, ?_, ?_⟩
  · rw [machine_make, Supply.namedRegs_append]
    exact mem_append_left _ hq
  · rw [← s.map_name_namedRegs a.regNames]
    exact mem_map_of_mem hq

theorem isMachine_of_mem {q : Reg} (h : q ∈ (a.make s).1.catalog.machine) :
    (a.make s).1.catalog.isMachine q = true :=
  Catalog.isMachine_of_reg?_eq_some (reg?_make.mpr ⟨h, rfl⟩)

theorem apt_make (a : Arch) (s : Supply) : (a.make s).1.Apt (a.make s).2 a.callerSaveNames where
  covers := a.covers s
  tidy _ h := tidy_of_mem h
  nodup := by
    rw [(describes_make a s).regs]
    refine List.Nodup.map (Option.some_injective _) (List.Nodup.of_map Reg.name ?_)
    rw [Supply.map_name_namedRegs]
    exact a.nodup_names.of_append_left
  machine r hr := by
    obtain ⟨q, rfl, hq, -⟩ := exists_of_mem_regs hr
    exact ⟨q, rfl, isMachine_of_mem hq⟩
  found _ hq := isMachine_of_mem hq
  knows q hq := by
    rw [Catalog.isMachine, beq_iff_eq] at hq
    exact knows_of_reg?_make hq
  fp_isMachine := isMachine_of_mem (mem_machine_fp a s).1
  fp_not_mem hmem := by
    obtain ⟨q, hq, -, hname⟩ := exists_of_mem_regs hmem
    cases hq
    exact disjoint_of_nodup_append a.nodup_names hname (mem_machine_fp a s).2
  named n hn := by
    have hall : ∀ n ∈ a.callerSaveNames, n ∈ a.regNames := by cases a <;> decide +kernel
    exact reg?_mem_regs (hall n hn)
  passing := by
    have hall : ∀ n ∈ a.paramNames ++ [a.linkName], n ∈ a.callerSaveNames := by
      cases a <;> decide +kernel
    rw [(params_make a s).1, ← reg?_make_link a s, ← map_singleton, ← map_append]
    intro r hr
    obtain ⟨n, hn, rfl⟩ := mem_map.mp hr
    exact mem_map_of_mem (hall n hn)
  keeping := by
    have hall : ∀ n ∈ a.calleeSaveNames ++ [a.resultName], n ∈ a.regNames := by
      cases a <;> decide +kernel
    rw [(params_make a s).2, (describes_make a s).result, ← map_singleton, ← map_append]
    intro r hr
    obtain ⟨n, hn, rfl⟩ := mem_map.mp hr
    exact reg?_mem_regs (hall n hn)
  room := by
    rw [length_regs_make]
    cases a <;> decide +kernel
  room_calls := by
    rw [length_regs_make, (params_make a s).1, (params_make a s).2, length_map, length_map]
    cases a <;> decide +kernel

end Arch

/-! ### Instructions that leave room -/

namespace Target

variable {t : Target} {base s s' : Supply} {names : List String} {r : Option Reg} {i : Instr}
  {c : Code}

/-- The registers with one of the given names. -/
abbrev named (t : Target) (names : List String) : List (Option Reg) := names.map t.catalog.reg?

theorem Nameable.isSome (h : t.Nameable s r) : r.isSome = true := by
  obtain ⟨q, rfl, -⟩ := h
  rfl

section

variable (ht : t.Apt base names)
include ht

/-- What can be named is not allocatable. -/
theorem Apt.not_mem_regs (h : t.Nameable s r) : r ∉ t.catalog.regs := by
  intro hr
  obtain ⟨q, rfl, hq | rfl⟩ := h
  · obtain ⟨q', hq', hm⟩ := ht.machine _ hr
    cases hq'
    rw [hq.not_machine] at hm
    cases hm
  · exact ht.fp_not_mem hr

theorem Apt.mem_regs_of_named (h : r ∈ t.named names) : r ∈ t.catalog.regs := by
  obtain ⟨n, hn, rfl⟩ := mem_map.mp h
  exact ht.named n hn

theorem Apt.room_named : (t.named names).length + 4 ≤ t.catalog.regs.length := by
  rw [length_map]
  exact ht.room

/-- A register that is handed out later can be named. -/
theorem Apt.variable_of_made {q : Reg} (h : base.Made s q) : t.Variable s q := by
  refine ⟨?_, h.knows⟩
  by_contra hq
  exact (ht.knows q (by simpa using hq)).ne h rfl

theorem Apt.nameable_freshReg (hs : base.Grows s) : t.Nameable s.freshReg.2 (some s.freshReg.1) :=
  ⟨_, rfl, .inl (ht.variable_of_made (s.made_freshReg.mono hs (.refl _)))⟩

theorem Apt.keeps (hs : base.Grows s) : s.Keeps t.Nameable where
  mono hc h := h.mono hc
  fresh _ hc := ht.nameable_freshReg (hs.trans hc)

end

/-- The registers of an instruction are among the given ones, but for a few that can be named. -/
def Modest (t : Target) (us : List (Option Reg)) (n : Nat) (s : Supply) (i : Instr) : Prop :=
  ∃ rs : List (Option Reg), rs.length ≤ n ∧
    ∀ r ∈ i.reads ++ i.writes, t.Nameable s r ∧ r ∈ rs ∨ r ∈ us

/-- Modest instructions leave room for each other. -/
theorem Apt.roomy_of_modest (ht : t.Apt base names) {us : List (Option Reg)} {n : Nat}
    (hus : ∀ r ∈ us, r ∈ t.catalog.regs) (hn : us.length + n ≤ t.catalog.regs.length)
    (h : ∀ i ∈ c, t.Modest us n s i) :
    Roomy t.catalog (some t.fp) t.catalog.regs.length c := by
  refine ⟨us.toFinset, fun r hr hmem => ?_, fun i hi => ?_⟩
  · obtain ⟨i, hi, hr⟩ := mem_flatMap.mp hr
    obtain ⟨rs, -, hrs⟩ := h i hi
    exact mem_toFinset.mpr ((hrs r hr).resolve_left fun hn => ht.not_mem_regs hn.1 hmem)
  · obtain ⟨rs, hlen, hrs⟩ := h i hi
    have hfew : virtuals t.catalog (some t.fp) (i.reads ++ i.writes) ⊆ rs.toFinset := fun r hr => by
      obtain ⟨hr, hv⟩ := mem_virtuals.mp hr
      obtain ⟨-, hmem⟩ | hmem := hrs r hr
      · exact mem_toFinset.mpr hmem
      · simp [isVirtual, hus r hmem] at hv
    have hcard := (Finset.card_le_card hfew).trans (toFinset_card_le rs)
    have hus := toFinset_card_le us
    omega

/-- Every register of a modest instruction can be named or allocated. -/
theorem nameable_or_mem_regs {us : List (Option Reg)} {n : Nat} (hus : ∀ r ∈ us, r ∈ t.catalog.regs)
    (h : ∀ i ∈ c, t.Modest us n s i) : ∀ r ∈ c.regs, t.Nameable s r ∨ r ∈ t.catalog.regs := by
  intro r hr
  obtain ⟨i, hi, hr⟩ := mem_flatMap.mp hr
  obtain ⟨rs, -, hrs⟩ := h i hi
  exact (hrs r hr).imp And.left (hus r)

end Target

end Codegen
