import Codegen.Proofs.Selection.Catalog
import Codegen.Proofs.Supply
import Codegen.Target.Amd64
import Codegen.Target.Arm64
import Mathlib.Data.List.Nodup

/-!
# The machines that code is generated for

The targets for the two machines (`Arch`), made by a supply. Their registers have different names, so
that each of them is found by its own (`Catalog.reg?_eq_some_iff`), and the supply has handed them out
(`Arch.knows_of_mem_machine`).
-/

namespace Codegen

open List

/-! ### Registers with names -/

namespace Supply

theorem namedRegs_snd (s : Supply) (names : List String) :
    (s.namedRegs names).2 = { s with regs := s.regs + names.length } := by
  induction names generalizing s with
  | nil => rfl
  | cons n names ih =>
    rw [namedRegs, ih, length_cons]
    show { s with regs := s.regs + 1 + names.length } = _
    rw [Nat.add_assoc, Nat.add_comm 1]

theorem namedRegs_append (s : Supply) (names names' : List String) :
    (s.namedRegs (names ++ names')).1 =
      (s.namedRegs names).1 ++ ((s.namedRegs names).2.namedRegs names').1 := by
  induction names generalizing s with
  | nil => rfl
  | cons n names ih =>
    show (s.namedReg n).1 :: ((s.namedReg n).2.namedRegs (names ++ names')).1 = _
    rw [ih]
    rfl

theorem map_name_namedRegs (s : Supply) (names : List String) :
    (s.namedRegs names).1.map Reg.name = names := by
  induction names generalizing s with
  | nil => rfl
  | cons n names ih =>
    rw [namedRegs, map_cons, ih]
    rfl

theorem of_mem_namedRegs {s : Supply} {names : List String} {r : Reg}
    (h : r ∈ (s.namedRegs names).1) :
    r.pool = s.pool ∧ s.regs ≤ r.id ∧ r.id < s.regs + names.length := by
  induction names generalizing s with
  | nil => cases h
  | cons n names ih =>
    rw [namedRegs] at h
    rw [length_cons]
    obtain rfl | h := mem_cons.mp h
    · exact ⟨rfl, Nat.le_refl _, Nat.lt_add_of_pos_right (Nat.succ_pos _)⟩
    · obtain ⟨h1, h2, h3⟩ := ih h
      have h4 : s.regs + 1 ≤ r.id := h2
      have h5 : r.id < s.regs + 1 + names.length := h3
      exact ⟨h1, by omega, by omega⟩

theorem eq_of_mem_namedRegs {s : Supply} {names : List String} {r w : Reg}
    (hr : r ∈ (s.namedRegs names).1) (hw : w ∈ (s.namedRegs names).1) (hid : r.id = w.id) : r = w := by
  induction names generalizing s with
  | nil => cases hr
  | cons n names ih =>
    rw [namedRegs] at hr hw
    have hlater {q : Reg} (hq : q ∈ ((s.namedReg n).2.namedRegs names).1) : s.regs < q.id :=
      (of_mem_namedRegs hq).2.1
    obtain rfl | hr := mem_cons.mp hr
    · obtain rfl | hw := mem_cons.mp hw
      · rfl
      · exact absurd hid (Nat.ne_of_lt (hlater hw))
    · obtain rfl | hw := mem_cons.mp hw
      · exact absurd hid.symm (Nat.ne_of_lt (hlater hr))
      · exact ih hr hw

end Supply

namespace Catalog

variable {c : Catalog} {name : String} {r : Reg}

theorem of_reg?_eq_some (h : c.reg? name = some r) : r ∈ c.machine ∧ r.name = name :=
  ⟨mem_reverse.mp (mem_of_find?_eq_some h), by simpa using find?_some h⟩

/-- With different names, each register is found by its own. -/
theorem reg?_eq_some_iff (hn : (c.machine.map Reg.name).Nodup) :
    c.reg? name = some r ↔ r ∈ c.machine ∧ r.name = name := by
  refine ⟨of_reg?_eq_some, ?_⟩
  rintro ⟨hr, rfl⟩
  obtain ⟨w, hw⟩ : ∃ w, c.reg? r.name = some w := by
    rw [← Option.isSome_iff_exists, reg?, find?_isSome]
    exact ⟨r, mem_reverse.mpr hr, beq_self_eq_true _⟩
  obtain ⟨hw1, hw2⟩ := of_reg?_eq_some hw
  rw [hw, inj_on_of_nodup_map hn hw1 hr hw2]

theorem isMachine_of_reg?_eq_some (h : c.reg? name = some r) : c.isMachine r = true := by
  rw [isMachine, (of_reg?_eq_some h).2, h, beq_self_eq_true]

end Catalog

/-- The machines that code is generated for. -/
inductive Arch
  | amd64 | arm64
deriving DecidableEq, Repr

namespace Arch

/-- The target for a machine. -/
def make : Arch → Supply → Target × Supply
  | .amd64 => Target.Amd64.make
  | .arm64 => Target.Arm64.make

/-- The names of the registers that are not allocated: the frame pointer and the stack pointer. -/
def pointerNames : Arch → List String
  | .amd64 => ["%rbp", "%rsp"]
  | .arm64 => ["FP", "SP"]

/-- The names of the registers that may be allocated. -/
def regNames : Arch → List String
  | .amd64 => Target.Amd64.regNames
  | .arm64 => Target.Arm64.regNames

theorem nodup_names (a : Arch) : (a.regNames ++ a.pointerNames).Nodup := by
  cases a <;> decide +kernel

theorem supply_make (a : Arch) (s : Supply) :
    (a.make s).2 = { s with regs := s.regs + (a.regNames ++ a.pointerNames).length } := by
  cases a
  · show (((s.namedRegs Target.Amd64.regNames).2.namedReg "%rbp").2.namedReg "%rsp").2 = _
    rw [Supply.namedRegs_snd]
    rfl
  · show (((s.namedRegs Target.Arm64.regNames).2.namedReg "FP").2.namedReg "SP").2 = _
    rw [Supply.namedRegs_snd]
    rfl

theorem machine_make (a : Arch) (s : Supply) :
    (a.make s).1.catalog.machine = (s.namedRegs (a.regNames ++ a.pointerNames)).1 := by
  rw [Supply.namedRegs_append]
  cases a
  · show (Catalog.addAll _ _).machine = _
    rw [Catalog.addAll_eq]
    rfl
  · show (Catalog.addAll _ _).machine = _
    rw [Catalog.addAll_eq]
    rfl

variable {a : Arch} {s : Supply} {name : String} {r : Reg}

/-- Each register of a machine is found by its name. -/
theorem reg?_make : (a.make s).1.catalog.reg? name = some r ↔
    r ∈ (a.make s).1.catalog.machine ∧ r.name = name := by
  refine Catalog.reg?_eq_some_iff ?_
  rw [machine_make, Supply.map_name_namedRegs]
  exact a.nodup_names

theorem exists_reg?_make (a : Arch) (s : Supply) (h : name ∈ a.regNames ++ a.pointerNames) :
    ∃ r, (a.make s).1.catalog.reg? name = some r := by
  rw [← s.map_name_namedRegs (a.regNames ++ a.pointerNames), ← machine_make, mem_map] at h
  obtain ⟨r, hr, rfl⟩ := h
  exact ⟨r, reg?_make.mpr ⟨hr, rfl⟩⟩

/-- The supply has handed out the registers of the machine. -/
theorem knows_of_mem_machine (h : r ∈ (a.make s).1.catalog.machine) :
    (a.make s).2.Knows (some r) := by
  rintro w hw -
  cases hw
  rw [machine_make] at h
  rw [supply_make]
  exact (Supply.of_mem_namedRegs h).2.2

theorem mem_machine_fp (a : Arch) (s : Supply) :
    (a.make s).1.fp ∈ (a.make s).1.catalog.machine ∧ (a.make s).1.fp.name ∈ a.pointerNames := by
  rw [machine_make, Supply.namedRegs_append, mem_append]
  cases a <;> exact ⟨.inr mem_cons_self, mem_cons_self⟩

theorem knows_of_reg?_make (h : (a.make s).1.catalog.reg? name = some r) :
    (a.make s).2.Knows (some r) := knows_of_mem_machine (reg?_make.mp h).1

/-- A register that is handed out later is not one of the machine. -/
theorem isMachine_of_made {s' : Supply} (h : (a.make s).2.Made s' r) :
    (a.make s).1.catalog.isMachine r = false := by
  by_contra hr
  rw [Bool.not_eq_false, Catalog.isMachine, beq_iff_eq] at hr
  exact (knows_of_reg?_make hr).ne h rfl

end Arch

end Codegen
