import Codegen.Proofs.Execution.Basic

/-!
# Execution under other registers

Code runs the same when its registers are replaced through a map that keeps apart what is written and
what is live at the same time, copies excepted (`Sound`): every step visits the same instruction with
the same values and memory (`run_mapRegs`). Only registers that are live have to agree.
-/

namespace Codegen

open List

/-- The instruction with its registers replaced. -/
def Instr.mapRegs (φ : Option Reg → Option Reg) (x : Instr) : Instr :=
  { x with reads := x.reads.map φ, writes := x.writes.map φ }

/-- The instruction is a move that reads just `u` and writes just `d`, apart from the frame
pointer. -/
structure Instr.Copies (x : Instr) (fp u d : Option Reg) : Prop where
  isMove : x.isMove = true
  reads : ∀ r, r ∈ x.reads ∧ r ≠ fp ↔ r = u
  writes : ∀ r, r ∈ x.writes ∧ r ≠ fp ↔ r = d

namespace Execution

variable {V A : Type*} {code : Code} {M : Nat → Meaning V A} {c c' : Config V A} {i : Nat}
  {x : Instr} {fp r : Option Reg} {φ : Option Reg → Option Reg}

/-- Moves copy what they read. -/
def Copying (code : Code) (fp : Option Reg) (M : Nat → Meaning V A) : Prop :=
  ∀ i x u d, code[i]? = some x → x.Copies fp u d → ∀ (regs : Option Reg → V) mem n,
    x.writes[n]? = some d → (M i (x.reads.map regs) mem).out n = regs u

/-- The map keeps apart what an instruction writes and what is live after it, unless it copies that;
it leaves the frame pointer alone. -/
structure Sound (φ : Option Reg → Option Reg) (code : Code) (fp : Option Reg) : Prop where
  frame : φ fp = fp
  ne_frame : ∀ r ∈ code.regs, r ≠ fp → φ r ≠ fp
  apart : ∀ i x w r, code[i]? = some x → w ∈ x.writes → w ≠ fp → code.LiveAfter r i → r ≠ fp →
    φ w = φ r → w = r ∨ x.Copies fp r w

/-- Two configurations agree through the map on the frame pointer, the memory and all registers that
are live. -/
structure Agree (φ : Option Reg → Option Reg) (code : Code) (fp : Option Reg) (c c' : Config V A) :
    Prop where
  pc : c'.pc = c.pc
  mem : c'.mem = c.mem
  frame : c'.regs fp = c.regs fp
  regs : ∀ i r, c.pc = some i → code.LiveBefore r i → r ≠ fp → c'.regs (φ r) = c.regs r

theorem getElem?_mapRegs (hx : code[i]? = some x) :
    (code.map (Instr.mapRegs φ))[i]? = some (x.mapRegs φ) := by
  rw [getElem?_map, hx]
  rfl

theorem goto_mapRegs (way : Way) : Code.goto (code.map (Instr.mapRegs φ)) i (x.mapRegs φ) way =
    code.goto i x way := by
  cases way with
  | next => simp [Code.goto, Code.inside, Instr.mapRegs, Instr.fallsThrough]
  | dest n =>
    have hfind : ∀ l : Label, ((code.map (Instr.mapRegs φ)).findIdx? fun y => y.label == some l) =
        code.findIdx? fun y => y.label == some l := by
      intro l
      rw [findIdx?_map]
      rfl
    simp only [Code.goto, hfind]
    rfl

theorem Agree.ins (h : Agree φ code fp c c') (hφ : Sound φ code fp) (hpc : c.pc = some i)
    (hx : code[i]? = some x) : (x.mapRegs φ).reads.map c'.regs = x.reads.map c.regs := by
  show (x.reads.map φ).map c'.regs = _
  rw [map_map]
  refine map_congr_left fun r hr => ?_
  show c'.regs (φ r) = c.regs r
  by_cases hfp : r = fp
  · rw [hfp, hφ.frame, h.frame]
  · exact h.regs i r hpc ⟨x, hx, Or.inl hr⟩ hfp

/-- Writing through the map, if only a copy of the register may share its place. -/
theorem assign_of_apart {out : Nat → V} {regs regs' : Option Reg → V} (hw : fp ∉ x.writes)
    (hfp : r ≠ fp) (hapart : ∀ w ∈ x.writes, φ w = φ r → w = r ∨ x.Copies fp r w)
    (hcopy : ∀ w n, x.Copies fp r w → x.writes[n]? = some w → out n = regs r)
    (hregs : r ∉ x.writes → regs' (φ r) = regs r) :
    assign (x.writes.map φ) out regs' (φ r) = assign x.writes out regs r := by
  by_cases hinj : ∀ w ∈ x.writes, φ w = φ r → w = r
  · exact assign_map _ hinj hregs
  · -- a copy of the register holds the same value
    push Not at hinj
    obtain ⟨w, hwmem, hwr, hne⟩ := hinj
    have hcopies := (hapart w hwmem hwr).resolve_left hne
    have hnw : r ∉ x.writes := fun hrw => hne ((hcopies.writes r).mp ⟨hrw, hfp⟩).symm
    have hmem : φ r ∈ x.writes.map φ := mem_map.mpr ⟨w, hwmem, hwr⟩
    obtain ⟨n, hn, heq⟩ := assign_of_mem out regs' hmem
    rw [heq, assign_of_not_mem _ hnw]
    rw [getElem?_map, Option.map_eq_some_iff] at hn
    obtain ⟨w', hw', -⟩ := hn
    have hw'd : w' = w := (hcopies.writes w').mp
      ⟨mem_of_getElem? hw', fun hwf => hw (hwf ▸ mem_of_getElem? hw')⟩
    exact hcopy w n hcopies (hw'd ▸ hw')

/-- What an instruction writes, as far as it is live afterwards. -/
theorem Agree.outs (h : Agree φ code fp c c') (hφ : Sound φ code fp) (hM : Copying code fp M)
    (hw : fp ∉ x.writes) (hpc : c.pc = some i) (hx : code[i]? = some x) (hr : code.LiveAfter r i)
    (hfp : r ≠ fp) :
    assign (x.mapRegs φ).writes (M i (x.reads.map c.regs) c.mem).out c'.regs (φ r) =
      assign x.writes (M i (x.reads.map c.regs) c.mem).out c.regs r :=
  assign_of_apart hw hfp
    (fun w hwmem => hφ.apart i x w r hx hwmem (fun hwf => hw (hwf ▸ hwmem)) hr hfp)
    (fun w n hcopies => hM i x r w hx hcopies c.regs c.mem n)
    fun hnw => h.regs i r hpc ⟨x, hx, Or.inr ⟨hnw, hr⟩⟩ hfp

/-- One step visits the same instruction and keeps the agreement. -/
theorem Agree.step (h : Agree φ code fp c c') (hφ : Sound φ code fp) (hM : Copying code fp M)
    (hlab : code.labels.Nodup) (hw : ∀ x ∈ code, fp ∉ x.writes) :
    Agree φ code fp (code.step M c).1 (Code.step (code.map (Instr.mapRegs φ)) M c').1 ∧
      (Code.step (code.map (Instr.mapRegs φ)) M c').2 = (code.step M c).2 := by
  cases hpc : c.pc with
  | none =>
    rw [step_of_none hpc, step_of_none (h.pc.trans hpc)]
    exact ⟨h, rfl⟩
  | some i =>
    have hpc' := h.pc.trans hpc
    cases hx : code[i]? with
    | none =>
      have hx' : (code.map (Instr.mapRegs φ))[i]? = none := by rw [getElem?_map, hx]; rfl
      rw [step_of_outside hpc hx, step_of_outside hpc' hx']
      exact ⟨⟨rfl, h.mem, h.frame, fun i r hi => by cases hi⟩, rfl⟩
    | some x =>
      have hxmem := mem_of_getElem? hx
      have hins := h.ins hφ hpc hx
      rw [step_of_getElem? hpc hx, step_of_getElem? hpc' (getElem?_mapRegs hx)]
      refine ⟨⟨?_, ?_, ?_, fun j r hj hl hfp => ?_⟩, ?_⟩
      · show Code.goto _ i (x.mapRegs φ) (M i ((x.mapRegs φ).reads.map c'.regs) c'.mem).way = _
        rw [hins, h.mem, goto_mapRegs]
        rfl
      · show (M i ((x.mapRegs φ).reads.map c'.regs) c'.mem).mem = _
        rw [hins, h.mem]
        rfl
      · have hfp : fp ∉ (x.mapRegs φ).writes := by
          intro hmem
          obtain ⟨w, hwmem, hwfp⟩ := mem_map.mp hmem
          exact hφ.ne_frame w (Code.mem_regs_of_writes hx hwmem)
            (fun hwf => hw x hxmem (hwf ▸ hwmem)) hwfp
        show assign (x.mapRegs φ).writes _ c'.regs fp = assign x.writes _ c.regs fp
        rw [assign_of_not_mem _ hfp, assign_of_not_mem _ (hw x hxmem), h.frame]
      · show assign (x.mapRegs φ).writes
          (M i ((x.mapRegs φ).reads.map c'.regs) c'.mem).out c'.regs (φ r) = _
        rw [hins, h.mem]
        exact h.outs hφ hM (hw x hxmem) hpc hx
          (Code.liveAfter_iff.mpr ⟨j, follows_of_goto hlab hx hj, hl⟩) hfp
      · unfold Code.visit
        rw [hins, h.mem]
        simp [Instr.mapRegs]

/-- Code runs the same through the map. -/
theorem run_mapRegs (h : Agree φ code fp c c') (hφ : Sound φ code fp) (hM : Copying code fp M)
    (hlab : code.labels.Nodup) (hw : ∀ x ∈ code, fp ∉ x.writes) (n : Nat) :
    Agree φ code fp (code.run M n c).1 (Code.run (code.map (Instr.mapRegs φ)) M n c').1 ∧
      (Code.run (code.map (Instr.mapRegs φ)) M n c').2 = (code.run M n c).2 := by
  induction n with
  | zero => exact ⟨h, rfl⟩
  | succ n ih =>
    obtain ⟨h1, h2⟩ := ih
    obtain ⟨h3, h4⟩ := h1.step hφ hM hlab hw
    rw [run_succ, run_succ]
    exact ⟨h3, by rw [h2, h4]⟩

end Execution

end Codegen
