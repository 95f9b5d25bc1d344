import Codegen.Proofs.Selection.Sound

/-!
# Selection keeps the meaning of trees

On both machines code is selected for every expression without calls and effects that names virtual
registers and the frame pointer only, and it leaves the value of the expression in the register for
it; the code for moves and jumps does what they do. Nothing else changes but fresh registers and the
scratch registers of the machine.
-/

namespace Codegen

open Semantics Assembly TemplateSource Selection

namespace Target

/-- A virtual register that was handed out before. -/
structure Variable (t : Target) (s : Supply) (r : Reg) : Prop where
  not_machine : t.catalog.isMachine r = false
  knows : s.Knows (some r)

/-- What trees may name: a virtual register or the frame pointer. -/
def Nameable (t : Target) (s : Supply) (r : Option Reg) : Prop :=
  ∃ q, r = some q ∧ (t.Variable s q ∨ q = t.fp)

theorem Nameable.mono {t : Target} {s s' : Supply} {r : Option Reg} (h : t.Nameable s r)
    (hs : s.Grows s') : t.Nameable s' r := by
  obtain ⟨q, rfl, hq⟩ := h
  exact ⟨q, rfl, hq.imp_left fun h => ⟨h.not_machine, h.knows.mono hs⟩⟩

end Target

namespace Arch

variable {a : Arch} {s : Supply} {s' : Supply}

theorem knows_of_isScratch (hs : (a.make s).2.Grows s') {r : Option Reg}
    (h : IsScratch (a.make s).1.catalog.reg? a.scratch r) : s'.Knows r := by
  obtain ⟨n, hn, rfl⟩ := h
  have hmem : ∀ n ∈ a.scratch, n ∈ a.regNames := by cases a <;> decide
  obtain ⟨q, hq⟩ := exists_reg?_make a s (List.mem_append_left _ (hmem n hn))
  rw [hq]
  exact (knows_of_reg?_make hq).mono hs

theorem usable_of_variable {r : Reg} (h : (a.make s).1.Variable s' r) :
    Usable (a.make s).1.kit a.scratch s' (some r) := by
  refine ⟨rfl, h.knows, ?_⟩
  rintro ⟨n, -, hreg⟩
  exact absurd ((Catalog.isMachine_of_reg?_eq_some hreg).symm.trans h.not_machine) (by decide)

theorem usable_fp (hs : (a.make s).2.Grows s') :
    Usable (a.make s).1.kit a.scratch s' (some (a.make s).1.fp) := by
  obtain ⟨hmem, hname⟩ := mem_machine_fp a s
  refine ⟨rfl, (knows_of_mem_machine hmem).mono hs, ?_⟩
  rintro ⟨n, hn, hreg⟩
  have hdisj : ∀ n ∈ a.scratch, n ∉ a.pointerNames := by cases a <;> decide
  exact hdisj n hn ((Catalog.of_reg?_eq_some hreg).2 ▸ hname)

theorem usable_of_nameable (hs : (a.make s).2.Grows s') {r : Option Reg}
    (h : (a.make s).1.Nameable s' r) : Usable (a.make s).1.kit a.scratch s' r := by
  obtain ⟨q, rfl, hq | rfl⟩ := h
  · exact usable_of_variable hq
  · exact usable_fp hs

theorem variable_of_made {r : Reg} (h : (a.make s).2.Made s' r) : (a.make s).1.Variable s' r :=
  ⟨isMachine_of_made h, h.knows⟩

theorem selectStmt_of_isPlain {k : Kit} {x : Stmt} (hx : x.isPlain = true) :
    selectStmt k x = selectNode k x := by
  cases x with
  | missing | eval | seq | place => cases hx
  | move | jump | cjump => rw [selectStmt]

/-- On both machines code is selected for every expression without calls, statements and unknown
operators inside. Where all its operators are defined, it leaves the value in the register for it,
and it changes no memory and no other registers but fresh and scratch ones. The code that is selected
for a move, a jump or a conditional jump writes, stores or goes just where the statement does. -/
theorem selection_keeps_meaning (a : Arch) (s : Supply) (st : State)
    (hs : (a.make s).2.Grows st.supply) :
    (∀ (x : Expr) (d : Reg), x.isPlain = true →
      (∀ r ∈ regsOf x, (a.make s).1.Nameable st.supply r) →
      (a.make s).1.Variable st.supply d → some d ∉ regsOf x →
      ∃ st', selectExpr (a.make s).1.kit x (some d) st = .ok () st' ∧
        Leaves (a.make s).1.kit a.isa a.scratch x d st st') ∧
    ∀ x : Stmt, x.isPlain = true →
      (∀ r ∈ regsIn x, (a.make s).1.Nameable st.supply r) →
      ∃ st', selectStmt (a.make s).1.kit x st = .ok () st' ∧
        Carries (a.make s).1.kit a.isa a.scratch x st st' := by
  constructor
  · intro x d hx hregs hd hdx
    have hends := selectExpr_computes (a.sound s) x d st (fun r hr => knows_of_isScratch hs hr) hx
      (fun r hr => usable_of_nameable hs (hregs r hr)) (usable_of_variable hd) hdx
    obtain ⟨_, st', hrun, hleaves⟩ := hends.returns
    exact ⟨st', hrun, hleaves⟩
  · intro x hx hregs
    have hends := selectNode_performs (a.sound s) st (fun r hr => knows_of_isScratch hs hr) hx
      fun r hr => usable_of_nameable hs (hregs r hr)
    obtain ⟨_, st', hrun, hcarries⟩ := hends.returns
    exact ⟨st', by rw [selectStmt_of_isPlain hx, hrun], hcarries⟩

/-- The case of a division whose divisor is a shift of the frame pointer: it needs all of the scratch
registers of one machine. -/
theorem selection_keeps_meaning_division :
    let s := (amd64.make {}).2
    let v := s.freshReg.1
    let d := s.freshReg.2.freshReg.1
    let x : Expr := .bin .div (.temp (some v))
      (.bin .shl (.temp (some (amd64.make {}).1.fp)) (.temp (some v)) 0) 0
    let st : State := { supply := s.freshReg.2.freshReg.2 }
    ∃ st', selectExpr (amd64.make {}).1.kit x (some d) st = .ok () st' ∧
      Leaves (amd64.make {}).1.kit amd64.isa amd64.scratch x d st st' := by
  intro s v d x st
  have hgrows := s.freshReg.2.grows_freshReg
  have hd := s.freshReg.2.made_freshReg
  have hx : ∀ r ∈ regsOf x, (amd64.make {}).1.Nameable s.freshReg.2 r := by
    intro r hr
    have hr : r ∈ [some v, some (amd64.make {}).1.fp, some v] := hr
    simp only [List.mem_cons, List.not_mem_nil, or_false] at hr
    obtain rfl | rfl | rfl := hr
    · exact ⟨v, rfl, .inl (variable_of_made s.made_freshReg)⟩
    · exact ⟨_, rfl, .inr rfl⟩
    · exact ⟨v, rfl, .inl (variable_of_made s.made_freshReg)⟩
  exact (selection_keeps_meaning amd64 {} st (s.grows_freshReg.trans hgrows)).1 x d rfl
    (fun r hr => (hx r hr).mono hgrows) (variable_of_made (hd.mono s.grows_freshReg (.refl _)))
    fun hr => (usable_of_nameable s.grows_freshReg (hx _ hr)).knows.ne hd rfl

end Arch

end Codegen
