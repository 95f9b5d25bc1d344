import Codegen.Proofs.Supply
import Codegen.Spill
import Codegen.Target.Basic
import Mathlib.Data.List.Basic

/-!
# Spilled code

Which registers spilled code mentions: those it mentioned before, the frame pointer, and registers
made for the spill (`mem_regs_spillEach`).
-/

namespace Codegen

open List

namespace Code

theorem mem_regs {code : Code} {r : Option Reg} :
    r ∈ code.regs ↔ ∃ x ∈ code, r ∈ x.reads ∨ r ∈ x.writes := by
  simp [regs, mem_flatMap]

theorem mem_replaceReg {r x : Option Reg} {t : Reg} {list : List (Option Reg)}
    (h : x ∈ Codegen.replaceReg r t list) : x ∈ list ∨ x = some t := by
  obtain ⟨y, hy, rfl⟩ := mem_map.mp h
  split
  · exact Or.inr rfl
  · exact Or.inl hy

variable (r : Option Reg) (load store : Reg → Instr)

theorem grows_detach (code : Code) (s : Supply) : s.Grows (detach r load store code s).2 := by
  induction code generalizing s with
  | nil => exact Supply.Grows.refl s
  | cons x rest ih =>
    unfold detach
    split
    · exact (s.grows_freshReg).trans (ih _)
    · exact ih s

variable {r load store}

/-- Detaching a register brings in fresh registers and what their loads and stores mention. -/
theorem mem_regs_detach {code : Code} {s : Supply} {x : Option Reg}
    (h : x ∈ regs (detach r load store code s).1) :
    x ∈ code.regs ∨ ∃ t, s.Made (detach r load store code s).2 t ∧
      (x = some t ∨ x ∈ regs [load t, store t]) := by
  induction code generalizing s with
  | nil => exact Or.inl h
  | cons y rest ih =>
    have hcons : ∀ {z}, z ∈ regs rest → z ∈ regs (y :: rest) := fun hz =>
      mem_append_right _ hz
    unfold detach at h ⊢
    split at h
    · rename_i hm
      rw [if_pos hm]
      dsimp only at h ⊢
      obtain ⟨z, hz, hx⟩ := mem_regs.mp h
      have hgrow := grows_detach r load store rest s.freshReg.2
      have hmade := s.made_freshReg.mono (Supply.Grows.refl s) hgrow
      simp only [mem_append, mem_singleton] at hz
      rcases hz with ((hz | rfl) | hz) | hz
      · split at hz
        · rw [mem_singleton] at hz
          subst hz
          exact Or.inr ⟨_, hmade, Or.inr (mem_regs.mpr ⟨_, mem_cons_self, hx⟩)⟩
        · cases hz
      · rcases hx.imp mem_replaceReg mem_replaceReg with (hx | hx) | (hx | hx)
        · exact Or.inl (mem_regs.mpr ⟨y, mem_cons_self, Or.inl hx⟩)
        · exact Or.inr ⟨_, hmade, Or.inl hx⟩
        · exact Or.inl (mem_regs.mpr ⟨y, mem_cons_self, Or.inr hx⟩)
        · exact Or.inr ⟨_, hmade, Or.inl hx⟩
      · split at hz
        · rw [mem_singleton] at hz
          subst hz
          exact Or.inr ⟨_, hmade, Or.inr (mem_regs.mpr ⟨_, mem_cons_of_mem _ mem_cons_self,
            hx⟩)⟩
        · cases hz
      · rcases ih (mem_regs.mpr ⟨z, hz, hx⟩) with h1 | ⟨t, h1, h2⟩
        · exact Or.inl (hcons h1)
        · exact Or.inr ⟨t, h1.mono s.grows_freshReg (Supply.Grows.refl _), h2⟩
    · rename_i hm
      rw [if_neg hm]
      dsimp only at h ⊢
      obtain ⟨z, hz, hx⟩ := mem_regs.mp h
      rcases mem_cons.mp hz with rfl | hz
      · exact Or.inl (mem_regs.mpr ⟨z, mem_cons_self, hx⟩)
      · rcases ih (mem_regs.mpr ⟨z, hz, hx⟩) with h1 | h1
        · exact Or.inl (hcons h1)
        · exact Or.inr h1

end Code

/-! ### Spilling several registers -/

/-- Move registers to slots of the frame one after the other. -/
def Code.spillEach (sc : SpillCode) :
    List (Option Reg) → Code → Frame → Supply → Code × Frame × Supply
  | [], code, f, s => (code, f, s)
  | r :: rest, code, f, s =>
    let (code, f, s) := Code.spill sc f code r s
    spillEach sc rest code f s

/-- Loads and stores mention the frame pointer and the register that they are for, nothing else. -/
def SpillCode.Local (sc : SpillCode) : Prop :=
  ∀ fp off t x, x ∈ Code.regs [sc.load fp off t, sc.store fp off t] → x = fp ∨ x = some t

theorem Dialect.spillCode_local (d : Dialect) : d.spillCode.Local := by
  intro fp off t x hx
  simp only [Code.regs, spillCode, loadSlot, storeAt, flatMap_cons, flatMap_nil] at hx
  simp only [cons_append, nil_append, append_nil, mem_cons, not_mem_nil,
    or_false] at hx
  rcases hx with rfl | rfl | rfl | rfl <;> simp

namespace Code

variable {sc : SpillCode} {code : Code} {f : Frame} {s : Supply}

theorem grows_spillEach (sc : SpillCode) (rs : List (Option Reg)) (code : Code) (f : Frame)
    (s : Supply) :
    s.Grows (spillEach sc rs code f s).2.2 ∧ (spillEach sc rs code f s).2.1.fp = f.fp := by
  induction rs generalizing code f s with
  | nil => exact ⟨Supply.Grows.refl s, rfl⟩
  | cons r rest ih =>
    obtain ⟨h1, h2⟩ := ih (Code.spill sc f code r s).1 (Code.spill sc f code r s).2.1
      (Code.spill sc f code r s).2.2
    exact ⟨(grows_detach _ _ _ code s).trans h1, h2⟩

/-- Spilling brings in registers made for the spills and what their loads and stores mention. -/
theorem mem_regs_spillEach_made {rs : List (Option Reg)} {x : Option Reg}
    (h : x ∈ regs (spillEach sc rs code f s).1) :
    x ∈ code.regs ∨ ∃ t, s.Made (spillEach sc rs code f s).2.2 t ∧
      (x = some t ∨ ∃ off, x ∈ regs [sc.load f.fp off t, sc.store f.fp off t]) := by
  induction rs generalizing code f s with
  | nil => exact Or.inl h
  | cons r rest ih =>
    have hgrow := (grows_spillEach sc rest (Code.spill sc f code r s).1
      (Code.spill sc f code r s).2.1 (Code.spill sc f code r s).2.2).1
    rcases ih h with h1 | ⟨t, h1, h2⟩
    · rcases mem_regs_detach h1 with h2 | ⟨t, h2, h3⟩
      · exact Or.inl h2
      · exact Or.inr ⟨t, h2.mono (Supply.Grows.refl s) hgrow, h3.imp id fun h3 => ⟨_, h3⟩⟩
    · exact Or.inr ⟨t, h1.mono (grows_detach _ _ _ code s) (Supply.Grows.refl _), h2⟩

/-- Spilling brings in the frame pointer and registers made for the spills. -/
theorem mem_regs_spillEach (hsc : sc.Local) {rs : List (Option Reg)} {x : Option Reg}
    (h : x ∈ regs (spillEach sc rs code f s).1) :
    x ∈ code.regs ∨ x = f.fp ∨
      ∃ t, s.Made (spillEach sc rs code f s).2.2 t ∧ x = some t := by
  rcases mem_regs_spillEach_made h with h1 | ⟨t, h1, h2 | ⟨off, h2⟩⟩
  · exact Or.inl h1
  · exact Or.inr (Or.inr ⟨t, h1, h2⟩)
  · exact Or.inr ((hsc _ _ _ _ h2).imp id fun h2 => ⟨t, h1, h2⟩)

end Code

end Codegen
