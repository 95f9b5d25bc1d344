import Codegen.Proofs.Execution.Renaming
import Codegen.Proofs.Numbering
import Mathlib.Data.Set.Function

/-!
# Liveness under other registers

Registers get their numbers in the order in which code refers to them, whatever they are. Code whose
registers are replaced by a map that keeps them apart has the same flow graph (`ofCode_mapRegs`) and,
apart from the registers that the numbers stand for, the same liveness (`ofFlow_mapRegs`).
-/

namespace Codegen

open List

variable {φ : Option Reg → Option Reg} {dom : Set (Option Reg)} {code : Code}

theorem Code.regs_mapRegs (code : Code) :
    Code.regs (code.map (Instr.mapRegs φ)) = code.regs.map φ := by
  simp [regs, Instr.mapRegs, map_flatMap, flatMap_map]

theorem Code.forall_mem_regs_cons {P : Option Reg → Prop} {x : Instr} :
    (∀ r ∈ Code.regs (x :: code), P r) ↔
      ((∀ r ∈ x.reads, P r) ∧ ∀ r ∈ x.writes, P r) ∧ ∀ r ∈ code.regs, P r := by
  rw [show Code.regs (x :: code) = (x.reads ++ x.writes) ++ Code.regs code from rfl,
    forall_mem_append, forall_mem_append]

theorem Code.mapRegs_congr {ψ : Option Reg → Option Reg} (h : ∀ r ∈ code.regs, φ r = ψ r) :
    code.map (Instr.mapRegs φ) = code.map (Instr.mapRegs ψ) := by
  induction code with
  | nil => rfl
  | cons x rest ih =>
    obtain ⟨⟨hreads, hwrites⟩, hrest⟩ := Code.forall_mem_regs_cons.mp h
    rw [map_cons, map_cons, ih hrest]
    unfold Instr.mapRegs
    rw [map_congr_left hreads, map_congr_left hwrites]

/-- A map that keeps registers apart does not change which of them a list contains. -/
theorem contains_map_of_injOn (hφ : Set.InjOn φ dom) {rs : List (Option Reg)} {r : Option Reg}
    (hrs : ∀ x ∈ rs, x ∈ dom) (hr : r ∈ dom) : (rs.map φ).contains (φ r) = rs.contains r := by
  rw [Bool.eq_iff_iff, contains_iff_mem, contains_iff_mem, mem_map]
  constructor
  · rintro ⟨x, hx, heq⟩
    exact hφ (hrs x hx) hr heq ▸ hx
  · exact fun h => ⟨r, h, rfl⟩

/-- Where an array has the first element of a kind, if its elements are replaced along with it. -/
theorem findIdx?_map_of_forall {xs : Array (Option Reg)} {p q : Option Reg → Bool}
    (h : ∀ x ∈ xs, p (φ x) = q x) : (xs.map φ).findIdx? p = xs.findIdx? q := by
  rw [Array.findIdx?_map]
  refine Option.ext fun i => ?_
  rw [Array.findIdx?_eq_some_iff_getElem, Array.findIdx?_eq_some_iff_getElem]
  simp only [Function.comp_apply, h _ (Array.getElem_mem _)]

theorem findIdx?_map_of_injOn (hφ : Set.InjOn φ dom) {xs : Array (Option Reg)} {r : Option Reg}
    (hxs : ∀ x ∈ xs, x ∈ dom) (hr : r ∈ dom) :
    (xs.map φ).findIdx? (· == φ r) = xs.findIdx? (· == r) := by
  refine findIdx?_map_of_forall fun x hx => ?_
  rw [Bool.eq_iff_iff, beq_iff_eq, beq_iff_eq]
  exact ⟨hφ (hxs x hx) hr, congrArg φ⟩

/-! ### Flow graphs -/

namespace Flow

theorem placesFrom_mapRegs (placed : List (Label × Nat)) (i : Nat) (code : Code) :
    placesFrom placed i (code.map (Instr.mapRegs φ)) = placesFrom placed i code := by
  induction code generalizing placed i with
  | nil => rfl
  | cons x rest ih =>
    rw [map_cons]
    unfold placesFrom
    simp only [ih]
    rfl

theorem succsFrom_mapRegs (placed : List (Label × Nat)) (n i : Nat) (code : Code) :
    succsFrom placed n i (code.map (Instr.mapRegs φ)) = succsFrom placed n i code := by
  induction code generalizing i with
  | nil => rfl
  | cons x rest ih =>
    rw [map_cons]
    unfold succsFrom
    rw [ih]
    rfl

theorem ofCode_mapRegs (code : Code) : ofCode (code.map (Instr.mapRegs φ)) = ofCode code := by
  unfold ofCode places
  simp only [placesFrom_mapRegs, succsFrom_mapRegs, length_map]

end Flow

/-! ### Numbers -/

namespace Numbering

/-- The numbering with its registers replaced. -/
def mapRegs (φ : Option Reg → Option Reg) (n : Numbering) : Numbering :=
  { n with regs := n.regs.map φ }

/-- All numbered registers are from the given ones. -/
def Within (n : Numbering) (dom : Set (Option Reg)) : Prop := ∀ r ∈ n.regs, r ∈ dom

variable {n : Numbering} {r ignore : Option Reg}

theorem within_empty (dom : Set (Option Reg)) : Within {} dom := fun r hr => by simp at hr

theorem Within.number (hn : n.Within dom) (hr : r ∈ dom) : (n.number r).2.Within dom := by
  unfold Numbering.number
  split
  · exact hn
  · intro x hx
    rcases Array.mem_push.mp hx with hx | rfl
    · exact hn x hx
    · exact hr

theorem number_mapRegs (hφ : Set.InjOn φ dom) (hn : n.Within dom) (hr : r ∈ dom) :
    (n.mapRegs φ).number (φ r) = ((n.number r).1, (n.number r).2.mapRegs φ) := by
  have hindex : (n.mapRegs φ).index? (φ r) = n.index? r := findIdx?_map_of_injOn hφ hn hr
  unfold Numbering.number
  rw [hindex]
  split
  · rfl
  · simp [mapRegs]

variable {a : List Nat × Numbering}

theorem Within.refer (hn : a.2.Within dom) (hr : r ∈ dom) : (refer ignore a r).2.Within dom := by
  have hnum := hn.number hr
  unfold Numbering.refer
  split
  · exact hn
  · dsimp only
    split
    · exact hnum
    · exact hnum

theorem refer_mapRegs (hφ : Set.InjOn φ dom) (hignore : ignore ∈ dom) (hn : a.2.Within dom)
    (hr : r ∈ dom) : refer (φ ignore) (a.1, a.2.mapRegs φ) (φ r) =
      ((refer ignore a r).1, (refer ignore a r).2.mapRegs φ) := by
  have heq : φ r = φ ignore ↔ r = ignore := hφ.eq_iff hr hignore
  unfold refer
  simp only [heq, number_mapRegs hφ hn hr]
  split
  · rfl
  · split <;> rfl

theorem foldl_refer_mapRegs (hφ : Set.InjOn φ dom) (hignore : ignore ∈ dom) {rs : List (Option Reg)}
    (hrs : ∀ r ∈ rs, r ∈ dom) (hn : a.2.Within dom) :
    (rs.foldl (refer ignore) a).2.Within dom ∧
      (rs.map φ).foldl (refer (φ ignore)) (a.1, a.2.mapRegs φ) =
        ((rs.foldl (refer ignore) a).1, (rs.foldl (refer ignore) a).2.mapRegs φ) := by
  induction rs generalizing a with
  | nil => exact ⟨hn, rfl⟩
  | cons r rest ih =>
    obtain ⟨hr, hrest⟩ := forall_mem_cons.mp hrs
    rw [map_cons, foldl_cons, foldl_cons, refer_mapRegs hφ hignore hn hr]
    exact ih hrest (hn.refer hr)

theorem ofCode_mapRegs (hφ : Set.InjOn φ dom) (hignore : ignore ∈ dom)
    (hcode : ∀ r ∈ code.regs, r ∈ dom) (hn : n.Within dom) :
    (ofCode ignore n code).2.Within dom ∧
      ofCode (φ ignore) (n.mapRegs φ) (code.map (Instr.mapRegs φ)) =
        ((ofCode ignore n code).1, (ofCode ignore n code).2.mapRegs φ) := by
  induction code generalizing n with
  | nil => exact ⟨hn, rfl⟩
  | cons x rest ih =>
    obtain ⟨⟨hreads, hwrites⟩, hrest⟩ := Code.forall_mem_regs_cons.mp hcode
    obtain ⟨h1, h2⟩ := foldl_refer_mapRegs (a := ([], n)) hφ hignore hreads hn
    obtain ⟨h3, h4⟩ := foldl_refer_mapRegs (a := ([], _)) hφ hignore hwrites h1
    obtain ⟨h5, h6⟩ := ih hrest h3
    refine ⟨h5, ?_⟩
    rw [map_cons]
    unfold ofCode referAll
    simp only [Instr.mapRegs, h2, h4, h6]

end Numbering

/-! ### Liveness -/

namespace Liveness

/-- The liveness with the registers that its numbers stand for replaced. -/
def mapRegs (φ : Option Reg → Option Reg) (l : Liveness) : Liveness :=
  { l with regs := l.regs.map φ }

variable {l : Liveness} {g : Flow} {ignore : Option Reg}

@[simp] theorem size_regs_mapRegs : (l.mapRegs φ).regs.size = l.regs.size := Array.size_map

theorem reg_mapRegs (h : φ none = none) (n : Nat) : (l.mapRegs φ).reg n = φ (l.reg n) := by
  unfold reg mapRegs
  rw [Array.getD_eq_getD_getElem?, Array.getD_eq_getD_getElem?, Array.getElem?_map]
  cases l.regs[n]? with
  | none => exact h.symm
  | some r => rfl

theorem ofFlow_mapRegs (hφ : Set.InjOn φ dom) (hignore : ignore ∈ dom)
    (hcode : ∀ r ∈ code.regs, r ∈ dom) (g : Flow) :
    ofFlow g (code.map (Instr.mapRegs φ)) (φ ignore) = (ofFlow g code ignore).mapRegs φ := by
  obtain ⟨-, h⟩ := Numbering.ofCode_mapRegs hφ hignore hcode (Numbering.within_empty dom)
  rw [show Numbering.mapRegs φ {} = {} by simp [Numbering.mapRegs]] at h
  have hsets : ∀ (f : Nat → Bitmap) {m m' : Nat}, m = m' →
      Array.ofFn (fun r : Fin m => f r) = Array.ofFn fun r : Fin m' => f r := by
    rintro f m _ rfl
    rfl
  unfold ofFlow
  rw [h]
  dsimp only [mapRegs, Numbering.mapRegs]
  rw [hsets _ Array.size_map]

end Liveness

end Codegen
