import Codegen.Proofs.Execution.Renaming

/-!
# Execution with any effects

Here an instruction may do anything that is allowed to it, whatever it reads, and each time something
else (`Code.Conduct`). What code does to a register is then only known from what writes it and from
copies. A register that is copied to a shelf, which nothing else writes, and is itself written only
from there, keeps its value (`Shelves.holds`). What is copied behind the last label stays
(`HandsOver.holds`).
-/

namespace Codegen

open Execution List

variable {V A : Type*}

namespace Code

/-- Execute one instruction with a given effect. -/
def perform (code : Code) (i : Nat) (x : Instr) (e : Effect V A) (c : Config V A) : Config V A :=
  { pc := code.goto i x e.way, regs := assign x.writes e.out c.regs, mem := e.mem }

/-- The code runs from `c` on through the given places, with an effect at each that is allowed
there. -/
inductive Conduct (code : Code) (allows : Nat → Config V A → Effect V A → Prop) (c : Config V A) :
    List (Nat × Effect V A) → Config V A → Prop
  | start : Conduct code allows c [] c
  | step {steps : List (Nat × Effect V A)} {c' : Config V A} {i : Nat} {x : Instr} {e : Effect V A}
      (run : Conduct code allows c steps c') (pc : c'.pc = some i) (instr : code[i]? = some x)
      (allowed : allows i c' e) : Conduct code allows c (steps ++ [(i, e)]) (code.perform i x e c')

/-- Moves copy what they read. -/
def Copied (code : Code) (fp : Option Reg) (i : Nat) (c : Config V A) (e : Effect V A) : Prop :=
  ∀ x u d n, code[i]? = some x → x.Copies fp u d → x.writes[n]? = some d → e.out n = c.regs u

end Code

namespace Execution

variable {code : Code} {c₀ c : Config V A} {e : Effect V A} {steps : List (Nat × Effect V A)}
  {i j p : Nat} {x : Instr} {fp r s q u d : Option Reg}

/-! ### Copies -/

theorem regs_perform_of_copies (he : code.Copied fp i c e) (hx : code[i]? = some x)
    (hc : x.Copies fp u d) : (code.perform i x e c).regs d = c.regs u := by
  obtain ⟨n, hn, heq⟩ := assign_of_mem e.out c.regs ((hc.writes d).mpr rfl).1
  exact heq.trans (he x u d n hx hc hn)

/-- Control goes on, or the instruction has a destination. -/
theorem goto_cases (hlab : code.labels.Nodup) (hx : code[i]? = some x)
    (hj : code.goto i x e.way = some j) :
    j = i + 1 ∨ x.dests ≠ [] ∧ ∃ l, code.PlacesAt l j := by
  obtain ⟨y, hy, ⟨-, rfl, -⟩ | ⟨l, hl, hplace⟩⟩ := follows_of_goto hlab hx hj
  · exact .inl rfl
  · cases hx.symm.trans hy
    exact .inr ⟨ne_nil_of_mem hl, l, hplace⟩

/-- An instruction of code stands in front of a given one, is that one, or stands behind it. -/
theorem getElem?_split {A B : Code} {x y : Instr} {i : Nat} (h : (A ++ x :: B)[i]? = some y) :
    i < A.length ∧ y ∈ A ∨ i = A.length ∧ y = x ∨ A.length < i ∧ y ∈ B := by
  rcases Nat.lt_trichotomy i A.length with hi | rfl | hi
  · rw [getElem?_append_left hi] at h
    exact .inl ⟨hi, mem_of_getElem? h⟩
  · rw [getElem?_append_right (Nat.le_refl _), Nat.sub_self] at h
    cases h
    exact .inr (.inl ⟨rfl, rfl⟩)
  · rw [getElem?_append_right (Nat.le_of_lt hi), getElem?_cons,
      if_neg (Nat.sub_ne_zero_of_lt hi)] at h
    exact .inr (.inr ⟨hi, mem_of_getElem? h⟩)

/-- The register `r` is copied to `s` at the place `p`. Nothing else writes `s`, and only copies from
there write `r`, behind `p`. No jump stands in front of `p`. -/
structure Shelves (code : Code) (fp r s : Option Reg) (p : Nat) : Prop where
  kept : ∀ (i : Nat) (x : Instr), code[i]? = some x → r ∈ x.writes → p < i ∧ x.Copies fp s r
  shelf : ∀ (i : Nat) (x : Instr), code[i]? = some x → s ∈ x.writes → x.Copies fp r s
  saves : ∀ x : Instr, code[p]? = some x → s ∈ x.writes
  jump : ∀ (i : Nat) (x : Instr), code[i]? = some x → x.dests ≠ [] → p < i

theorem Shelves.of_split {front behind : Code} (hx : x.Copies fp r s) (hrx : r ∉ x.writes)
    (hdests : x.dests = []) (hfront : ∀ y ∈ front, r ∉ y.writes ∧ s ∉ y.writes ∧ y.dests = [])
    (hbehind : ∀ y ∈ behind, (r ∈ y.writes → y.Copies fp s r) ∧ s ∉ y.writes) :
    Shelves (front ++ x :: behind) fp r s front.length where
  kept i y hy hr := by
    obtain ⟨-, hmem⟩ | ⟨-, rfl⟩ | ⟨hi, hmem⟩ := getElem?_split hy
    · exact absurd hr (hfront y hmem).1
    · exact absurd hr hrx
    · exact ⟨hi, (hbehind y hmem).1 hr⟩
  shelf i y hy hs := by
    obtain ⟨-, hmem⟩ | ⟨-, rfl⟩ | ⟨-, hmem⟩ := getElem?_split hy
    · exact absurd hs (hfront y hmem).2.1
    · exact hx
    · exact absurd hs (hbehind y hmem).2
  saves y hy := by
    obtain ⟨hi, -⟩ | ⟨-, rfl⟩ | ⟨hi, -⟩ := getElem?_split hy
    · exact absurd hi (Nat.lt_irrefl _)
    · exact ((hx.writes s).mpr rfl).1
    · exact absurd hi (Nat.lt_irrefl _)
  jump i y hy hne := by
    obtain ⟨-, hmem⟩ | ⟨-, rfl⟩ | ⟨hi, -⟩ := getElem?_split hy
    · exact absurd (hfront y hmem).2.2 hne
    · exact absurd hdests hne
    · exact hi

/-- A register that is put on a shelf keeps its value, and from then on the shelf holds it. -/
theorem Shelves.holds (h : Shelves code fp r s p) (hlab : code.labels.Nodup)
    (hstart : c₀.pc = some 0) (hrun : code.Conduct (code.Copied fp) c₀ steps c) :
    c.regs r = c₀.regs r ∧ ∀ i, c.pc = some i → p < i → c.regs s = c₀.regs r := by
  induction hrun with
  | start =>
    refine ⟨rfl, fun i hi hlt => ?_⟩
    rw [hstart] at hi
    cases hi
    exact absurd hlt (Nat.not_lt_zero p)
  | @step steps c i x e _ hpc hx he ih =>
    obtain ⟨hkept, hshelf⟩ := ih
    constructor
    · by_cases hr : r ∈ x.writes
      · obtain ⟨hlt, hcopies⟩ := h.kept i x hx hr
        rw [regs_perform_of_copies he hx hcopies, hshelf i hpc hlt]
      · exact (assign_of_not_mem _ hr).trans hkept
    · intro j hj hlt
      by_cases hs : s ∈ x.writes
      · rw [regs_perform_of_copies he hx (h.shelf i x hx hs), hkept]
      · refine (assign_of_not_mem _ hs).trans (hshelf i hpc ?_)
        obtain rfl | ⟨hdests, -⟩ := goto_cases hlab hx hj
        · have hne : p ≠ i := by
            rintro rfl
            exact hs (h.saves x hx)
          omega
        · exact h.jump i x hx hdests

/-- The register `q` is copied to `r` at the place `p`. Behind it no label stands and nothing writes
`r`. -/
structure HandsOver (code : Code) (fp q r : Option Reg) (p : Nat) : Prop where
  copies : ∀ x : Instr, code[p]? = some x → x.Copies fp q r
  keeps : ∀ (i : Nat) (x : Instr), code[i]? = some x → p < i → r ∉ x.writes
  labels : ∀ l i, code.PlacesAt l i → i ≤ p

theorem HandsOver.of_split {front behind : Code} (hx : x.Copies fp q r)
    (hbehind : ∀ y ∈ behind, r ∉ y.writes ∧ y.label = none) :
    HandsOver (front ++ x :: behind) fp q r front.length where
  copies y hy := by
    obtain ⟨hi, -⟩ | ⟨-, rfl⟩ | ⟨hi, -⟩ := getElem?_split hy
    · exact absurd hi (Nat.lt_irrefl _)
    · exact hx
    · exact absurd hi (Nat.lt_irrefl _)
  keeps i y hy hi := by
    obtain ⟨hlt, -⟩ | ⟨rfl, -⟩ | ⟨-, hmem⟩ := getElem?_split hy
    · exact absurd hi (Nat.lt_asymm hlt)
    · exact absurd hi (Nat.lt_irrefl _)
    · exact (hbehind y hmem).1
  labels l i hl := by
    obtain ⟨y, hy, hlabel⟩ := hl
    obtain ⟨hi, -⟩ | ⟨rfl, -⟩ | ⟨-, hmem⟩ := getElem?_split hy
    · exact Nat.le_of_lt hi
    · exact Nat.le_refl _
    · rw [(hbehind y hmem).2] at hlabel
      cases hlabel

/-- What was handed over stays. -/
theorem HandsOver.holds (h : HandsOver code fp q r p) (hlab : code.labels.Nodup)
    (hstart : c₀.pc = some 0) (hrun : code.Conduct (code.Copied fp) c₀ steps c)
    (hpc : c.pc = some i) (hi : p < i) :
    ∃ before c₁, before <+: steps ∧ code.Conduct (code.Copied fp) c₀ before c₁ ∧ c₁.pc = some p ∧
      c.regs r = c₁.regs q := by
  induction hrun generalizing i with
  | start =>
    rw [hstart] at hpc
    cases hpc
    exact absurd hi (Nat.not_lt_zero p)
  | @step steps c k x e hrun hk hx he ih =>
    obtain rfl | ⟨-, l, hplace⟩ := goto_cases hlab hx hpc
    · obtain rfl | hlt := Nat.lt_or_eq_of_le (Nat.le_of_lt_succ hi) |>.symm
      · exact ⟨steps, c, prefix_append .., hrun, hk, regs_perform_of_copies he hx (h.copies x hx)⟩
      · obtain ⟨before, c₁, hbefore, hc₁, hpc₁, heq⟩ := ih hk hlt
        exact ⟨before, c₁, hbefore.trans (prefix_append ..), hc₁, hpc₁,
          (assign_of_not_mem _ (h.keeps k x hx hlt)).trans heq⟩
    · have hle := h.labels l i hplace
      omega

/-! ### Other registers -/

/-- The map keeps apart what an instruction writes and what is live after it, unless it copies that,
and also all registers from the frame pointer. -/
structure Separates (φ : Option Reg → Option Reg) (code : Code) (fp : Option Reg) : Prop where
  frame : ∀ r ∈ code.regs, r ≠ fp → φ r ≠ φ fp
  apart : ∀ i x w r, code[i]? = some x → w ∈ x.writes → w ≠ fp → code.LiveAfter r i → r ≠ fp →
    φ w = φ r → w = r ∨ x.Copies fp r w

/-- Through the map, `regs'` holds what `regs` does: the frame pointer, and all that is live at the
place `p`. -/
structure Through (φ : Option Reg → Option Reg) (code : Code) (fp : Option Reg) (p : Nat)
    (regs regs' : Option Reg → V) : Prop where
  frame : regs' (φ fp) = regs fp
  live : ∀ r, code.LiveBefore r p → r ≠ fp → regs' (φ r) = regs r

variable {φ : Option Reg → Option Reg} {regs regs' : Option Reg → V}

theorem Through.of_read (h : Through φ code fp i regs regs') (hx : code[i]? = some x)
    (hr : r ∈ x.reads) : regs' (φ r) = regs r := by
  by_cases hfp : r = fp
  · rw [hfp, h.frame]
  · exact h.live r ⟨x, hx, .inl hr⟩ hfp

/-- One step keeps what is live. -/
theorem Through.step (h : Through φ code fp i regs regs') (hφ : Separates φ code fp)
    (hlab : code.labels.Nodup) (hx : code[i]? = some x) (hw : fp ∉ x.writes)
    (hcopy : ∀ u d n, x.Copies fp u d → x.writes[n]? = some d → e.out n = regs u)
    (hj : code.goto i x e.way = some j) :
    Through φ code fp j (assign x.writes e.out regs)
      (assign (x.mapRegs φ).writes e.out regs') where
  frame := by
    have hnot : φ fp ∉ x.writes.map φ := by
      intro hmem
      obtain ⟨w, hwmem, hwfp⟩ := mem_map.mp hmem
      exact hφ.frame w (Code.mem_regs_of_writes hx hwmem) (fun hwf => hw (hwf ▸ hwmem)) hwfp
    rw [assign_of_not_mem _ hw, ← h.frame]
    exact assign_of_not_mem _ hnot
  live r hl hfp := by
    have hafter : code.LiveAfter r i := Code.liveAfter_iff.mpr ⟨j, follows_of_goto hlab hx hj, hl⟩
    exact assign_of_apart hw hfp
      (fun w hwmem => hφ.apart i x w r hx hwmem (fun hwf => hw (hwf ▸ hwmem)) hafter hfp)
      (fun w n hcopies => hcopy r w n hcopies) fun hnw => h.live r ⟨x, hx, .inr ⟨hnw, hafter⟩⟩ hfp

end Execution

end Codegen
