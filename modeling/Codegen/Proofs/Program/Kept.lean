import Codegen.Proofs.Execution.Conduct
import Codegen.Proofs.Program.Scope

/-!
# What the code of a function keeps

The code that is selected for a function puts each callee-save register on a shelf, which is a register
that only it has, and restores it from there at the end (`Function.Parts.shelved`). In front of that the
result is copied to where it is returned (`Function.Parts.handsOver`). All its registers come from one
supply (`Function.Parts.mem_owned`).
-/

namespace Codegen

open Execution Pass Selection List

/-! ### Registers that are kept -/

/-- The registers that a function keeps are different ones. A call changes none of them, but the one for
results. -/
structure Target.Parted (t : Target) (names : List String) : Prop where
  nodup : t.catalog.calleeSave.Nodup
  apart : ∀ r ∈ t.catalog.calleeSave, r ∉ t.named names
  result : t.catalog.result ∈ t.named names

theorem Arch.parted_make (a : Arch) (s : Supply) : (a.make s).1.Parted a.callerSaveNames := by
  have hmem : a.resultName ∈ a.callerSaveNames := by cases a <;> decide +kernel
  have hnodup : ((a.callerSaveNames ++ a.calleeSaveNames).map (a.make s).1.catalog.reg?).Nodup :=
    nodup_map_reg?_make (by cases a <;> decide +kernel) (by cases a <;> decide +kernel)
  rw [map_append, ← (describes_make a s).calleeSave, nodup_append] at hnodup
  refine ⟨hnodup.2.1, fun r hr hr' => hnodup.2.2 r hr' r hr rfl, ?_⟩
  rw [(describes_make a s).result]
  exact mem_map_of_mem hmem

/-- What the return reads can be allocated. -/
theorem Target.Parted.mem_regs_of_ret {t : Target} {base : Supply} {names : List String}
    (ht' : t.Parted names) (ht : t.Apt base names) {result : Bool} {r : Option Reg}
    (hr : r ∈ (t.ret result).reads) : r ∈ t.catalog.regs := by
  obtain hr | hr := mem_append.mp hr
  · exact ht.keeping r (mem_append_left _ hr)
  · split at hr
    · exact mem_singleton.mp hr ▸ ht.mem_regs_of_named ht'.result
    · cases hr

/-- The registers of the machine come from the supply. -/
theorem Arch.owns_make (a : Arch) (s : Supply) :
    (a.make s).2.Owns {q | q ∈ (a.make s).1.catalog.machine} := by
  rw [machine_make, supply_make]
  exact ⟨fun r hr => (Supply.of_mem_namedRegs hr).2.2, fun r hr w hw => Supply.eq_of_mem_namedRegs hr hw⟩

theorem Dialect.isCopy_move (d : Dialect) (dst src : Option Reg) : IsCopy dst src (d.move dst src) :=
  ⟨rfl, rfl, rfl, rfl, rfl⟩

namespace Selection.IsCopy

variable {d q fp : Option Reg} {i : Instr} (h : IsCopy d q i)
include h

theorem copies (hq : q ≠ fp) (hd : d ≠ fp) : i.Copies fp q d where
  isMove := h.isMove
  reads r := by
    rw [h.reads, mem_singleton]
    exact ⟨And.left, fun hr => ⟨hr, hr ▸ hq⟩⟩
  writes r := by
    rw [h.writes, mem_singleton]
    exact ⟨And.left, fun hr => ⟨hr, hr ▸ hd⟩⟩

theorem staysIn {us : List (Option Reg)} {P W : Option Reg → Prop} (hq : P q ∨ q ∈ us)
    (hd : W d ∨ d ∈ us) : i.StaysIn us P W := by
  refine .of_straight ?_ ?_ h.label h.dests
  · rw [h.reads]
    exact forall_mem_singleton.mpr hq
  · rw [h.writes]
    exact forall_mem_singleton.mpr hd

end Selection.IsCopy

/-! ### The code that is selected -/

namespace Function

variable {t : Target} {env : Set Reg} {f : Frame} {fn : Function} {b : Bench} {names : List String}
  {base s : Supply} {ws : List Reg} {body deliver : Code} {result r u : Option Reg} {w : Reg}
  {i : Instr}

/-- What puts a parameter where it belongs. -/
theorem exists_storeLoc_of_mem_receive (hi : i ∈ t.receive f) : i = .place f.label ∨
    ∃ src ∈ t.catalog.params ++ [some t.link], ∃ loc ∈ f.params ++ f.parent.toList,
      i = t.dialect.storeLoc f.fp src loc := by
  simp only [Target.receive, cons_append, mem_cons, mem_append, mem_map] at hi
  obtain rfl | ⟨p, hp, rfl⟩ | ⟨loc, hloc, rfl⟩ := hi
  · exact .inl rfl
  · obtain ⟨hloc, hsrc⟩ := of_mem_zip hp
    exact .inr ⟨p.2, mem_append_left _ hsrc, p.1, mem_append_left _ hloc, rfl⟩
  · exact .inr ⟨_, by simp, loc, mem_append_right _ hloc, rfl⟩

theorem mem_shelves (hmem : (r, u) ∈ t.shelves ws) :
    r ∈ t.catalog.calleeSave ∧ ∃ w ∈ ws, u = some w := by
  obtain ⟨hr, hu⟩ := of_mem_zip hmem
  obtain ⟨w, hw, rfl⟩ := mem_map.mp hu
  exact ⟨hr, w, hw, rfl⟩

namespace Portable

variable (h : fn.Portable t env f b)
include h

/-- Parameters are put in registers of the function only. -/
theorem own_of_mem_receive (hi : i ∈ t.receive f) (hr : r ∈ i.writes) : Own t env f r := by
  obtain rfl | ⟨src, -, loc, hloc, rfl⟩ := exists_storeLoc_of_mem_receive hi
  · cases hr
  · cases loc with
    | reg q => exact mem_singleton.mp hr ▸ h.locs q hloc
    | offset off => cases hr

theorem not_own_of_made (hw : b.supply.Made s w) : ¬ Own t env f (some w) := fun hown => by
  have hold := h.owns.old w (hown w rfl).1
  have hle := hw.le
  omega

variable (ht : t.Apt base names)
include ht

theorem receive_staysIn (hi : i ∈ t.receive f) :
    i.StaysIn t.catalog.regs (fun r => r = f.fp ∨ Own t env f r) (Own t env f) := by
  have hwrites := fun r => h.own_of_mem_receive hi (r := r)
  obtain rfl | ⟨src, hsrc, loc, hloc, rfl⟩ := exists_storeLoc_of_mem_receive hi
  · exact ⟨nofun, nofun, fun _ => rfl, fun _ => rfl⟩
  · have hsrc := ht.mem_regs_of_named (ht.passing src hsrc)
    cases loc with
    | reg q => exact (t.dialect.isCopy_move _ _).staysIn (.inr hsrc) (.inl (hwrites _ (.head _)))
    | offset off =>
      refine .of_straight ?_ nofun rfl rfl
      show ∀ r ∈ [src, f.fp], _
      rw [forall_mem_cons, forall_mem_singleton]
      exact ⟨.inr hsrc, .inl (.inl rfl)⟩

/-- What may be allocated is no register of the function. -/
theorem not_since_of_mem_regs (hr : r ∈ t.catalog.regs) :
    ¬ b.supply.Since (Own t env f) s r := fun hsince => by
  obtain ⟨q, rfl, hq⟩ := ht.machine r hr
  rw [h.not_machine_of_since hsince rfl] at hq
  cases hq

theorem ne_of_mem_regs (hr : r ∈ t.catalog.regs) (hw : b.supply.Made s w) :
    r ≠ some w := by
  rintro rfl
  exact h.not_since_of_mem_regs ht hr (.inr ⟨w, rfl, hw⟩)

theorem ne_fp_of_mem_regs (hr : r ∈ t.catalog.regs) : r ≠ f.fp := by
  rintro rfl
  exact h.fp_not_mem_regs ht hr

/-- No register of the function is the frame pointer of the target. -/
theorem ne_target_fp_of_since (hr : b.supply.Since (Own t env f) s r) :
    r ≠ some t.fp := by
  rintro rfl
  have hm := ht.fp_isMachine
  rw [h.not_machine_of_since hr rfl] at hm
  cases hm

/-- Where parameters are put, the registers that can be allocated and those that come later stay as they
are. -/
theorem receive_leaves (hi : i ∈ t.receive f) (hr : r ∈ t.catalog.regs)
    (hw : b.supply.Made s w) : r ∉ i.writes ∧ some w ∉ i.writes ∧ i.dests = [] := by
  refine ⟨fun hmem => ?_, fun hmem => ?_, ?_⟩
  · exact h.not_since_of_mem_regs ht hr (s := s) (.inl (h.own_of_mem_receive hi hmem))
  · exact h.not_own_of_made hw (h.own_of_mem_receive hi hmem)
  · obtain rfl | ⟨src, -, loc, -, rfl⟩ := exists_storeLoc_of_mem_receive hi
    · rfl
    · cases loc <;> rfl

end Portable

namespace Parts

variable (hp : Parts t names env f b.supply s ws body deliver result)
include hp

theorem map_fst_shelves : (t.shelves ws).map Prod.fst = t.catalog.calleeSave :=
  map_fst_zip (by rw [length_map, hp.length])

theorem map_snd_shelves : (t.shelves ws).map Prod.snd = ws.map some :=
  map_snd_zip (by rw [length_map, hp.length])

theorem exists_shelf (hr : r ∈ t.catalog.calleeSave) : ∃ w, (r, some w) ∈ t.shelves ws := by
  rw [← hp.map_fst_shelves, mem_map] at hr
  obtain ⟨⟨r, u⟩, hmem, rfl⟩ := hr
  obtain ⟨-, w, -, rfl⟩ := mem_shelves hmem
  exact ⟨w, hmem⟩

/-- No other register has the shelf. -/
theorem split_shelves (hmem : (r, some w) ∈ t.shelves ws) : ∃ before after,
    t.shelves ws = before ++ (r, some w) :: after ∧
      ∀ p ∈ before ++ after, p ∈ t.shelves ws ∧ p.2 ≠ some w := by
  have hsnd : ((t.shelves ws).map Prod.snd).Nodup :=
    hp.map_snd_shelves ▸ hp.nodup.map (Option.some_injective _)
  obtain ⟨before, after, hsplit⟩ := append_of_mem hmem
  rw [hsplit, map_append, map_cons, nodup_middle, nodup_cons,
    ← map_append] at hsnd
  refine ⟨before, after, hsplit, fun p hp => ⟨?_, fun heq => hsnd.1 (mem_map.mpr ⟨p, hp, heq⟩)⟩⟩
  rw [hsplit]
  exact (mem_append.mp hp).elim (mem_append_left _) fun hp =>
    mem_append_right _ (mem_cons_of_mem _ hp)

variable (hfn : fn.Portable t env f b) (ht : t.Apt base names)
include hfn ht

/-- What saves another register leaves this one and its shelf alone. -/
theorem save_leaves {p : Option Reg × Option Reg}
    (hmem : p ∈ t.shelves ws) (hne : p.2 ≠ some w) (hr : r ∈ t.catalog.regs) :
    r ∉ (t.dialect.move p.2 p.1).writes ∧ some w ∉ (t.dialect.move p.2 p.1).writes := by
  obtain ⟨r', u⟩ := p
  obtain ⟨-, w', hw', rfl⟩ := mem_shelves hmem
  refine ⟨fun hmem => ?_, fun hmem => hne (mem_singleton.mp hmem).symm⟩
  exact hfn.ne_of_mem_regs ht hr (hp.made w' hw') (mem_singleton.mp hmem)

variable (ht' : t.Parted names)
include ht'

/-- What the code of a function reads and writes. -/
theorem staysIn_joined : ∀ i ∈ t.joined f ws body deliver result.isSome, i.StaysIn t.catalog.regs
      (b.supply.Since (fun r => r = f.fp ∨ Own t env f r) s) (b.supply.Since (Own t env f) s) := by
  have hkept {r : Option Reg} (hr : r ∈ t.catalog.calleeSave) : r ∈ t.catalog.regs :=
    ht.keeping r (mem_append_left _ hr)
  simp only [Target.joined, Target.epilogue_eq, forall_mem_append, forall_mem_singleton]
  refine ⟨⟨⟨⟨fun i hi => ?_, fun i hi => ?_⟩, fun i hi => ?_⟩, fun i hi => ?_⟩, fun i hi => ?_, ?_⟩
  · exact (hfn.receive_staysIn ht hi).mono (fun _ => id) (fun _ => .inl) fun _ => .inl
  · obtain ⟨⟨r, u⟩, hmem, rfl⟩ := mem_map.mp hi
    obtain ⟨hr, w, hw, rfl⟩ := mem_shelves hmem
    exact (t.dialect.isCopy_move _ _).staysIn (.inr (hkept hr)) (.inl (.inr ⟨w, rfl, hp.made w hw⟩))
  · exact (hp.stays i hi).mono (fun _ => ht.mem_regs_of_named) (fun _ => id) fun _ => id
  · obtain ⟨-, rfl⟩ | ⟨hsome, j, rfl, hj⟩ := hp.returned
    · cases hi
    · obtain ⟨q, rfl⟩ := Option.isSome_iff_exists.mp hsome
      cases mem_singleton.mp hi
      exact hj.staysIn (.inl (.inr ⟨q, rfl, hp.fresh q rfl⟩)) (.inr (ht.mem_regs_of_named ht'.result))
  · obtain ⟨⟨r, u⟩, hmem, rfl⟩ := mem_map.mp hi
    obtain ⟨hr, w, hw, rfl⟩ := mem_shelves hmem
    exact (t.dialect.isCopy_move _ _).staysIn (.inl (.inr ⟨w, rfl, hp.made w hw⟩)) (.inr (hkept hr))
  · exact .of_straight (fun r hr => .inr (ht'.mem_regs_of_ret ht hr)) (forall_mem_nil _) rfl rfl

/-- The body writes no callee-save register, and no shelf. -/
theorem body_leaves (hi : i ∈ body) (hr : r ∈ t.catalog.calleeSave) (hw : w ∈ ws) :
    r ∉ i.writes ∧ some w ∉ i.writes := by
  refine ⟨fun hmem => ?_, hp.apart i hi w hw⟩
  obtain hsince | hnamed := (hp.stays i hi).writes r hmem
  · exact hfn.not_since_of_mem_regs ht (ht.keeping r (mem_append_left _ hr)) hsince
  · exact ht'.apart r hr hnamed

/-- Neither does what copies the result. -/
theorem deliver_leaves (hi : i ∈ deliver) (hr : r ∈ t.catalog.calleeSave) (hw : w ∈ ws) :
    r ∉ i.writes ∧ some w ∉ i.writes := by
  obtain ⟨-, rfl⟩ | ⟨-, j, rfl, hj⟩ := hp.returned
  · cases hi
  · cases mem_singleton.mp hi
    rw [hj.writes, mem_singleton, mem_singleton]
    refine ⟨fun heq => absurd (heq ▸ ht'.result) (ht'.apart r hr), ?_⟩
    exact (hfn.ne_of_mem_regs ht (ht.mem_regs_of_named ht'.result) (hp.made w hw)).symm

/-- A register is restored from its shelf only. -/
theorem restore_copies (hmem : (r, some w) ∈ t.shelves ws) (hi : i ∈ t.restores ws) :
    (r ∈ i.writes → i.Copies f.fp (some w) r) ∧ some w ∉ i.writes := by
  obtain ⟨hr, _, hw, ⟨⟩⟩ := mem_shelves hmem
  obtain ⟨⟨r', u⟩, hmem', rfl⟩ := mem_map.mp hi
  refine ⟨fun heq => ?_, fun heq => ?_⟩
  · have hfst : ((t.shelves ws).map Prod.fst).Nodup := hp.map_fst_shelves ▸ ht'.nodup
    have heq : r = r' := mem_singleton.mp heq
    cases inj_on_of_nodup_map hfst hmem hmem' heq
    exact (t.dialect.isCopy_move _ _).copies (hfn.fp_ne_of_made ht (hp.made w hw)).symm
      (hfn.ne_fp_of_mem_regs ht (ht.keeping r (mem_append_left _ hr)))
  · have hr' := ht.keeping r' (mem_append_left _ (mem_shelves hmem').1)
    exact hfn.ne_of_mem_regs ht hr' (hp.made w hw) (mem_singleton.mp heq).symm

/-- A callee-save register is on its shelf. -/
theorem shelved (hmem : (r, some w) ∈ t.shelves ws) :
    ∃ p, Shelves (t.joined f ws body deliver result.isSome) f.fp r (some w) p := by
  obtain ⟨hr, _, hw, ⟨⟩⟩ := mem_shelves hmem
  have hregs : r ∈ t.catalog.regs := ht.keeping r (mem_append_left _ hr)
  have hne : r ≠ some w := hfn.ne_of_mem_regs ht hregs (hp.made w hw)
  obtain ⟨before, after, hsplit, hothers⟩ := hp.split_shelves hmem
  rw [forall_mem_append] at hothers
  have hcode : t.joined f ws body deliver result.isSome =
      (t.receive f ++ before.map fun p => t.dialect.move p.2 p.1) ++ t.dialect.move (some w) r ::
        ((after.map fun p => t.dialect.move p.2 p.1) ++ body ++ deliver ++
          (t.restores ws ++ [t.ret result.isSome])) := by
    simp only [Target.joined, Target.epilogue_eq, Target.saves, hsplit, map_append, map_cons,
      append_assoc, cons_append]
  rw [hcode]
  refine ⟨_, .of_split ((t.dialect.isCopy_move _ _).copies (hfn.ne_fp_of_mem_regs ht hregs)
    (hfn.fp_ne_of_made ht (hp.made w hw)).symm) ?_ rfl ?_ ?_⟩
  · exact fun hmem => hne (mem_singleton.mp hmem)
  · rw [forall_mem_append, forall_mem_map]
    refine ⟨fun i hi => hfn.receive_leaves ht hi hregs (hp.made w hw), fun p hmem => ?_⟩
    obtain ⟨h1, h2⟩ := hp.save_leaves hfn ht (hothers.1 p hmem).1 (hothers.1 p hmem).2 hregs
    exact ⟨h1, h2, rfl⟩
  · have hleaves {i : Instr} (h : r ∉ i.writes ∧ some w ∉ i.writes) :
        (r ∈ i.writes → i.Copies f.fp (some w) r) ∧ some w ∉ i.writes := ⟨fun hmem => absurd hmem h.1, h.2⟩
    simp only [forall_mem_append, forall_mem_map, forall_mem_singleton]
    refine ⟨⟨⟨fun p hmem => hleaves ?_, fun i hi => hleaves ?_⟩, fun i hi => hleaves ?_⟩,
      fun i hi => ?_, nofun, nofun⟩
    · exact hp.save_leaves hfn ht (hothers.2 p hmem).1 (hothers.2 p hmem).2 hregs
    · exact hp.body_leaves hfn ht ht' hi hr hw
    · exact hp.deliver_leaves hfn ht ht' hi hr hw
    · exact hp.restore_copies hfn ht ht' hmem hi

/-- The result is handed over behind the body. -/
theorem handsOver (hresult : result = some w) :
    ∃ front j, t.joined f ws body deliver result.isSome =
        front ++ j :: t.epilogue (ws.map some) true ∧ IsCopy t.catalog.result (some w) j ∧
      HandsOver (t.joined f ws body deliver result.isSome) f.fp (some w) t.catalog.result
        front.length := by
  cases hresult
  obtain ⟨hnone, -⟩ | ⟨-, j, rfl, hj⟩ := hp.returned
  · cases hnone
  have hcode : t.joined f ws body [j] true =
      (t.receive f ++ t.saves ws ++ body) ++ j :: t.epilogue (ws.map some) true := by
    rw [Target.joined, append_assoc, singleton_append]
  refine ⟨_, j, hcode, hj, ?_⟩
  rw [Option.isSome_some, hcode]
  have hmem := ht.mem_regs_of_named ht'.result
  refine .of_split (hj.copies (hfn.fp_ne_of_made ht (hp.fresh w rfl)).symm
    (hfn.ne_fp_of_mem_regs ht hmem)) ?_
  rw [Target.epilogue_eq, forall_mem_append, forall_mem_singleton]
  refine ⟨fun i hi => ?_, nofun, rfl⟩
  obtain ⟨⟨r, u⟩, hmem', rfl⟩ := mem_map.mp hi
  refine ⟨fun heq => ?_, rfl⟩
  have heq : t.catalog.result = r := mem_singleton.mp heq
  exact ht'.apart r (mem_shelves hmem').1 (heq ▸ ht'.result)

/-! ### The registers of the code -/

/-- The registers of the code of a function. -/
theorem mem_regs_joined (hr : r ∈ (t.joined f ws body deliver result.isSome).regs) :
    b.supply.Since (fun r => r = f.fp ∨ Own t env f r) s r ∨ r ∈ t.catalog.regs := by
  obtain ⟨i, hi, hr⟩ := mem_flatMap.mp hr
  have hstays := hp.staysIn_joined hfn ht ht' i hi
  obtain hr | hr := mem_append.mp hr
  · exact hstays.reads r hr
  · exact (hstays.writes r hr).imp_left fun hw => hw.imp_left .inr

/-- All of them come from one supply. -/
theorem mem_owned {q : Reg}
    (hq : some q ∈ f.fp :: (t.joined f ws body deliver result.isSome).regs) :
    q ∈ env ∪ {q | b.supply.Made s q} := by
  obtain ⟨p, hpenv, hfp⟩ := hfn.exists_fp ht
  obtain hq | hq := mem_cons.mp hq
  · cases hfp.symm.trans hq.symm
    exact .inl hpenv
  · obtain ((hq | hown) | ⟨_, ⟨⟩, hmade⟩) | hmem := hp.mem_regs_joined hfn ht ht' hq
    · cases hfp.symm.trans hq.symm
      exact .inl hpenv
    · exact .inl (hown q rfl).1
    · exact .inr hmade
    · obtain ⟨_, ⟨⟩, hm⟩ := ht.machine _ hmem
      rw [Catalog.isMachine, beq_iff_eq] at hm
      exact .inl (hfn.named q (Catalog.of_reg?_eq_some hm).1)

theorem knows_joined : ∀ r ∈ f.fp :: (t.joined f ws body deliver result.isSome).regs, s.Knows r := by
  rintro _ hr q rfl _
  exact (hfn.owns.grow hp.grows).old q (hp.mem_owned hfn ht ht' hr)

/-- No other register than the frame pointer is that of the target. -/
theorem ne_target_fp (hr : r ∈ (t.joined f ws body deliver result.isSome).regs) (hfp : r ≠ f.fp) :
    r ≠ some t.fp := by
  obtain hsince | hmem := hp.mem_regs_joined hfn ht ht' hr
  · exact hfn.ne_target_fp_of_since ht (hsince.imp_left fun h => h.resolve_left hfp)
  · exact fun heq => ht.fp_not_mem (heq ▸ hmem)

end Parts

end Function

end Codegen
