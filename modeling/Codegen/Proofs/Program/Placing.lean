import Codegen.Proofs.Allocation.Bounded
import Codegen.Proofs.Execution.Padding
import Codegen.Proofs.Program.Kept

/-!
# Where a compiled function has its registers

Compilation gives the registers of the selected code slots or machine registers. What the map sends to
one register is not in use at the same time, and what may be allocated stays as it is
(`Function.Parts.placing`). Then the frame is set up (`Function.Placing.stems`). Wherever the compiled
code arrives at its last instruction, the selected code does, with the same in the registers that are
read there (`Function.Placing.arrive`).
-/

namespace Codegen

open Allocation Execution Layout Pass Selection Semantics List

/-! ### Registers are allocated -/

namespace Allocation

variable {cat : Catalog} {d : Dialect} {cfg : Config} {code : Code} {st st' : State} {f : Frame}
  {res : Result}

/-- The map `m'` is `m`, but a frame pointer of its own goes to that of the target. -/
def Rebased (t : Target) (f : Frame) (m m' : RegMap) : Prop :=
  f.fp = some t.fp ∧ m' = m ∨ ∃ p, f.fp = some p ∧ m' = m.assign p (some t.fp)

namespace Rebased

variable {t : Target} {m m' : RegMap} {r : Option Reg} (h : Rebased t f m m')
include h

theorem resolve_fp (hm : f.fp.map m.resolve = f.fp) : f.fp.map m'.resolve = some t.fp := by
  obtain ⟨hfp, rfl⟩ | ⟨p, hfp, rfl⟩ := h
  · rw [hm, hfp]
  · rw [hfp]
    show some (((m.assign p (some t.fp)).get? p).getD p) = _
    rw [RegMap.get?_assign, if_pos rfl]
    rfl

theorem resolve_of_mem (hnum : Numbered code f.fp) (hr : r ∈ code.regs) (hne : r ≠ f.fp) :
    r.map m'.resolve = r.map m.resolve := by
  obtain ⟨-, rfl⟩ | ⟨p, hfp, rfl⟩ := h
  · rfl
  · cases r with
    | none => rfl
    | some q =>
      have hid : q.id ≠ p.id := fun hid =>
        hne (by rw [hfp, hnum q p (mem_cons_of_mem _ hr) (hfp ▸ mem_cons_self) hid])
      show some (((m.assign p (some t.fp)).get? q).getD q) = some ((m.get? q).getD q)
      rw [RegMap.get?_assign, if_neg hid]

theorem separates (hnum : Numbered code f.fp) (hm : Sound (Option.map m.resolve) code f.fp)
    (hne : ∀ r ∈ code.regs, r ≠ f.fp → r.map m.resolve ≠ some t.fp) :
    Separates (Option.map m'.resolve) code f.fp where
  frame r hr hfp := by
    rw [h.resolve_fp hm.frame, h.resolve_of_mem hnum hr hfp]
    exact hne r hr hfp
  apart i x w r hx hw hwf hl hrf heq := by
    rw [h.resolve_of_mem hnum (Code.mem_regs_of_writes hx hw) hwf,
      h.resolve_of_mem hnum hl.mem_regs hrf] at heq
    exact hm.apart i x w r hx hw hwf hl hrf heq

end Rebased

namespace Stage

variable {code₀ : Code} {s₀ : Supply} {temps spilled : List (Option Reg)} {bs : List Patch} {g : Flow}
  (h : Stage cat d f code₀ s₀ temps spilled code st bs)
include h

theorem nodup_labels (hg : Flow.ofCode code = .ok g) : code₀.labels.Nodup := by
  have hnodup := (Flow.ofCode_isOk_iff.mp ⟨g, hg⟩).1
  rwa [h.code_eq, Patch.labels_codeAll, h.layout.instrs] at hnodup

theorem patchable (hlabel : ∀ x ∈ code₀, x.label ≠ none → x.reads = [])
    (hbranch : ∀ x ∈ code₀, x.dests ≠ [] → x.writes = []) (hwrite : ∀ x ∈ code₀, f.fp ∉ x.writes)
    (hlabels : code₀.labels.Nodup) (hknows : ∀ r ∈ f.fp :: code₀.regs, s₀.Knows r)
    (hroom : spilled.length * f.slotBytes.toInt.natAbs < 2 ^ 64) :
    Patchable f.fp code₀ (slotsFor spilled f) s₀ bs st.supply where
  toLayout := h.layout
  label := hlabel
  branch := hbranch
  write := hwrite
  labels := hlabels
  knows r hr := hknows r (mem_cons_of_mem _ hr)
  knows_fp := hknows _ mem_cons_self
  slot_ne p hp := by
    refine (h.spilled p.1 ?_).2.1
    rw [← map_fst_slotsFor spilled f]
    exact mem_map_of_mem hp
  nodup_off := nodup_slotsFor hroom

end Stage

end Allocation

/-! ### The code of a compiled function -/

/-- How the code of a compiled function comes about: the code that was selected is patched with loads and
stores of slots, and padded with what sets up the frame. It goes from the label to the return. -/
structure CompiledFunction.Stems (res : CompiledFunction) (t : Target) (f : Frame) (result : Bool)
    (code : Code) (bs : List Patch) (W : List (Instr × Option Patch.Origin)) : Prop where
  instrs : bs.map Patch.instr = code
  slot : ∀ b ∈ bs, b.standIns.map StandIn.slot =
    (slotsFor res.alloc.spilled f).filter fun p => b.instr.mentions p.1
  alloc : res.alloc.code = Patch.codeAll t.dialect f.fp bs
  padded : Padded t.dialect f.fp bs W
  code : res.code = W.map Prod.fst
  head : res.code.head? = some (.place f.label)
  last : res.code.getLast? = some (t.ret result)

namespace Function

variable {t : Target} {env : Set Reg} {f f' : Frame} {fn : Function} {b : Bench} {names : List String}
  {base s : Supply} {ws : List Reg} {body deliver code : Code} {result : Option Reg} {cfg : Config}
  {res : CompiledFunction} {bs : List Patch} {W : List (Instr × Option Patch.Origin)} {z : Instr}

/-- The frame pointer gets its place in the map. -/
theorem mapFramePointer_rebased (m : RegMap) (b : Bench) :
    Ends (mapFramePointer t f m) b (fun m' b' => Rebased t f m m' ∧ b' = b) fun _ => True := by
  rw [mapFramePointer]
  split
  case isTrue hfp => exact ends_pure.mpr ⟨.inl ⟨hfp, rfl⟩, rfl⟩
  case isFalse =>
    rw [ends_bind]
    refine ends_orTrap (fun p hp => ?_) fun _ => trivial
    exact ends_pure.mpr ⟨.inr ⟨p, hp, rfl⟩, rfl⟩

/-- The second half of compilation allocates registers, gives the frame pointer its place in the map,
and sets up the frame. -/
theorem allocated_finished (hb : b.machine = none) (hf : b.frames[fn.frame]? = some f)
    (hnd : t.catalog.regs.Nodup) (hcode : ∀ r ∈ code.regs, b.supply.Knows r)
    (hfp : b.supply.Knows f.fp) (warnings : List Canonical.Warning) :
    Ends (fn.allocated t cfg f code warnings) b (fun res _ =>
      Finished t.catalog t.dialect (cfg.colorCount t.catalog.regs.length) f code b.supply res.alloc ∧
      Rebased t f res.alloc.map res.map ∧
      ∃ f', f'.label = f.label ∧ res.code = t.finish f' res.alloc.code) fun _ => True := by
  rw [allocated, ends_bind]
  refine (b.tell_ends _).mono ?_ fun _ _ => trivial
  rintro - b₁ ⟨hb₁, hs₁⟩
  have halloc : Ends (Bench.allocating fn.frame (allocate t.catalog t.dialect.spillCode cfg code)) b₁
      (fun res b' => Finished t.catalog t.dialect (cfg.colorCount t.catalog.regs.length) f code b.supply
        res ∧ ∃ f', f'.label = f.label ∧ b'.frames[fn.frame]? = some f') fun _ => True := by
    refine ends_allocating (hb₁.machine.trans hb) (hb₁.frames ▸ hf) ?_
    rw [hs₁]
    refine ends_of_forall fun res st hres b' hf' => ?_
    obtain ⟨hfin, hst⟩ := allocate_finished hnd hcode hfp rfl hres
    rw [hst] at hf'
    exact ⟨hfin, withSlots f res.spilled.length, by rw [withSlots_eq], hf'⟩
  refine (halloc.within _).bind ?_
  rintro alloc b₂ ⟨hfin, f', hlabel, hf'⟩
  refine (mapFramePointer_rebased alloc.map b₂).bind ?_
  rintro m _ ⟨hm, rfl⟩
  rw [ends_bind, Bench.frame, ends_bind, ends_get, hf']
  refine ends_orTrap ?_ fun _ => trivial
  rintro _ ⟨⟩
  rw [ends_bind]
  exact (Bench.tell_ends _ _).mono
    (fun _ _ _ => ends_pure.mpr ⟨hfin, hm, f', hlabel, rfl⟩) fun _ _ => trivial

/-- How the registers of selected code were allocated: some have slots, and the map keeps the others
apart and leaves alone those of the machine. -/
structure Placing (t : Target) (f : Frame) (code : Code) (res : CompiledFunction) (bs : List Patch) :
    Prop where
  layout : ∃ s s', Layout code (slotsFor res.alloc.spilled f) s bs s'
  patchable : res.alloc.spilled.length * f.slotBytes.toInt.natAbs < 2 ^ 64 →
    ∃ s s', Patchable f.fp code (slotsFor res.alloc.spilled f) s bs s'
  code_eq : res.alloc.code = Patch.codeAll t.dialect f.fp bs
  separates : Separates (Option.map res.map.resolve) (Patch.codeAll t.dialect f.fp bs) f.fp
  resolve_fp : f.fp.map res.map.resolve = some t.fp
  resolve_of_mem : ∀ r ∈ (Patch.codeAll t.dialect f.fp bs).regs, r ∈ t.catalog.regs →
    r.map res.map.resolve = r
  spilled : ∀ r ∈ res.alloc.spilled, r ∉ t.catalog.regs

/-- The registers of the code of a function are allocated. -/
theorem Parts.placing {k : Nat} (hp : Parts t names env f b.supply s ws body deliver result)
    (hfn : fn.Portable t env f b) (ht : t.Apt base names) (ht' : t.Parted names)
    (hfin : Finished t.catalog t.dialect k f (t.joined f ws body deliver result.isSome) s res.alloc)
    (hmap : Rebased t f res.alloc.map res.map) :
    ∃ bs, Placing t f (t.joined f ws body deliver result.isSome) res bs := by
  have howns := hfn.owns.grow hp.grows
  have howned := fun q => hp.mem_owned hfn ht ht' (q := q)
  have hstays := hp.staysIn_joined hfn ht ht'
  have hfp := hfn.fp_not_mem_regs ht
  obtain ⟨temps, st, bs, g, hstage, hg, hm⟩ := hfin
  have hnum := hstage.numbered (fun q hq => howns.old q (howned q hq)) fun q w hq hw =>
    howns.inj q (howned q hq) w (howned w hw)
  have hsound := sound_resolve ht.nodup hg hnum rfl hm hfp
  have hne : ∀ r ∈ res.alloc.code.regs, r ≠ f.fp → r ≠ some t.fp := by
    intro r hr hrfp
    obtain heq | ⟨w, hw, rfl⟩ | ⟨hr, -⟩ := hstage.mem_regs hr
    · exact absurd heq hrfp
    · have hmade := (hstage.layout.made w hw).mono hp.grows (.refl _)
      exact hfn.ne_target_fp_of_since ht (.inr ⟨w, rfl, hmade⟩)
    · exact hp.ne_target_fp hfn ht ht' hr hrfp
  refine ⟨bs, ⟨s, _, hstage.layout⟩, fun hroom => ⟨s, st.supply, ?_⟩, hstage.code_eq, ?_,
    hmap.resolve_fp hsound.frame, ?_, fun r hr => (hstage.spilled r hr).2.2⟩
  · exact hstage.patchable (fun x hx => (hstays x hx).label) (fun x hx => (hstays x hx).branch)
      (fun x hx hmem => ((hstays x hx).writes _ hmem).elim (hfn.fp_not_since ht) hfp)
      (hstage.nodup_labels hg) (hp.knows_joined hfn ht ht') hroom
  · rw [← hstage.code_eq]
    refine hmap.separates hnum hsound fun r hr hrfp heq => hne r hr hrfp ?_
    exact eq_of_resolve_eq ht.nodup hg hnum rfl hm hr hrfp ht.fp_not_mem heq
  · rw [← hstage.code_eq]
    intro r hr hmem
    have hrfp : r ≠ f.fp := fun h => hfp (h ▸ hmem)
    rw [hmap.resolve_of_mem hnum hr hrfp]
    exact resolve_of_mem_regs ht.nodup hg hnum rfl hm hr hrfp hmem

namespace Placing

variable (h : Placing t f code res bs)
include h

/-- The last instruction stays the last one, if it refers to registers of the machine only. -/
theorem exists_last (init : Code) (hcode : code = init ++ [z])
    (hz : ∀ r, r ∈ z.reads ∨ r ∈ z.writes → r ∈ t.catalog.regs) :
    ∃ before b, bs = before ++ [b] ∧ before.map Patch.instr = init ∧ b.instr = z ∧
      ∀ p ∈ slotsFor res.alloc.spilled f, b.instr.mentions p.1 = false := by
  obtain ⟨s, s', hlay⟩ := h.layout
  obtain ⟨before, last, rfl, hinit, hlast⟩ := map_eq_append_iff.mp (hlay.instrs.trans hcode)
  obtain ⟨b, rfl, rfl⟩ := map_eq_singleton_iff.mp hlast
  refine ⟨before, b, rfl, hinit, rfl, fun p hp => ?_⟩
  rw [Bool.eq_false_iff]
  intro hmention
  refine h.spilled p.1 ?_ (hz p.1 (Instr.mentions_iff.mp hmention))
  rw [← map_fst_slotsFor res.alloc.spilled f]
  exact mem_map_of_mem hp

/-- Where the frame is set up, the code is padded. -/
theorem stems {mid : Code} {result : Bool} (hcode : code = .place f.label :: (mid ++ [t.ret result]))
    (hret : ∀ r ∈ (t.ret result).reads, r ∈ t.catalog.regs) (hlabel : f'.label = f.label)
    (hres : res.code = t.finish f' res.alloc.code) : ∃ W, res.Stems t f result code bs W := by
  obtain ⟨before, b, hbs, hbefore, hb, hfree⟩ := h.exists_last (.place f.label :: mid) hcode
    fun r hr => hr.elim (hret r) nofun
  obtain ⟨s, s', hlay⟩ := h.layout
  obtain ⟨b₀, rest, rfl, hb₀, -⟩ := map_eq_cons_iff.mp hbefore
  -- nothing stands in for a register of the first instruction, or of the last
  have hfirst : b₀.standIns = [] := hlay.standIns_eq_nil (by simp [hbs]) fun p _ => by
    rw [hb₀]
    rfl
  have hlast : b.standIns = [] := hlay.standIns_eq_nil (by simp [hbs]) hfree
  have hall : Patch.codeAll t.dialect f.fp bs =
      .place f.label :: (Patch.codeAll t.dialect f.fp rest ++ [t.ret result]) := by
    rw [hbs, Patch.codeAll_append, Patch.codeAll_singleton_of_nil hlast, hb, ← singleton_append,
      Patch.codeAll_append, Patch.codeAll_singleton_of_nil hfirst, hb₀]
    rfl
  obtain ⟨y, tail, htail⟩ : ∃ y tail, Patch.codeAll t.dialect f.fp rest ++ [t.ret result] = y :: tail :=
    exists_cons_of_ne_nil (by simp)
  obtain ⟨W, hfinish, hpadded⟩ := t.exists_padded (f := f') (hall.trans (by rw [htail]))
    (by rw [hlabel]; rfl)
  have heq : res.code = t.setup f' [.place f.label] ++ (Patch.codeAll t.dialect f.fp rest ++
      t.dialect.leave.map Instr.plain ++ [t.ret result]) := by
    rw [hres, h.code_eq, hall, ← singleton_append, Target.finish_eq (by rw [hlabel]; rfl) (by simp),
      dropLast_concat, getLast?_concat]
    rfl
  refine ⟨W, hlay.instrs, hlay.slot, h.code_eq, hpadded, ?_, ?_, ?_⟩
  · rw [hres, h.code_eq, hfinish]
  · rw [heq]
    rfl
  · rw [heq, ← append_assoc, getLast?_concat]

/-- Where the compiled code arrives at its return, the code that was selected does, with the same in the
registers that are read there; and it started with these. -/
theorem arrive {V A : Type} {addr : V → Int64 → A} {c₀ c : Execution.Config V A}
    {steps : List (Nat × Effect V A)}
    (hroom : res.alloc.spilled.length * f.slotBytes.toInt.natAbs < 2 ^ 64)
    (hW : Padded t.dialect f.fp bs W) (init : Code) (hcode : code = init ++ [z])
    (hz : ∀ r, r ∈ z.reads ∨ r ∈ z.writes → r ∈ t.catalog.regs)
    (hpc₀ : c₀.pc = some 0) (haddr : Function.Injective (addr (c₀.regs (some t.fp))))
    (hrun : Code.Conduct ((W.map Prod.fst).map (Instr.mapRegs (Option.map res.map.resolve)))
      (Patch.AllowsAt (Option.map res.map.resolve) f.fp addr (slotsFor res.alloc.spilled f) W) c₀ steps c)
    (hpc : c.pc = some (W.length - 1)) :
    let v₀ : Execution.Config V A := ⟨some 0, Patch.gather (Option.map res.map.resolve) addr
      (c₀.regs (some t.fp)) (slotsFor res.alloc.spilled f) c₀, c₀.mem⟩
    ∃ v, code.Conduct (code.Copied f.fp) v₀ (Patch.keptSteps W steps) v ∧ v.pc = some init.length ∧
      ∀ r ∈ z.reads, c.regs r = v.regs r ∧ v₀.regs r = c₀.regs r := by
  classical
  intro v₀
  obtain ⟨before, b, hbs, hbefore, hb, hfree⟩ := h.exists_last init hcode hz
  obtain ⟨s, s', hlay⟩ := h.patchable hroom
  have hstart := hlay.underway t.dialect addr (by simp [hbs]) (Option.map res.map.resolve) c₀
  have haddr' := haddr
  rw [← h.resolve_fp] at haddr'
  obtain ⟨v, hv, hvpc, hregs⟩ := hW.arrive hlay h.separates haddr' hstart hpc₀ hrun hpc hbs hfree
  rw [h.resolve_fp] at hv
  refine ⟨v, hv, by rw [hvpc, ← hbefore, length_map], fun r hr => ?_⟩
  -- what the last instruction reads is where it was
  have hmem := hz r (.inl hr)
  have hresolve : r.map res.map.resolve = r := by
    refine h.resolve_of_mem r ?_ hmem
    rw [hbs, Patch.codeAll_append, Patch.codeAll_singleton_of_nil
      (hlay.standIns_eq_nil (by simp [hbs]) hfree), hb]
    exact mem_flatMap.mpr ⟨z, by simp, mem_append_left _ hr⟩
  have heq := hregs r (hb ▸ hr)
  rw [hresolve] at heq
  refine ⟨heq, ?_⟩
  show Patch.gather _ _ _ _ _ r = _
  rw [Patch.gather_of_not_mem, hresolve]
  rw [map_fst_slotsFor]
  exact fun hspilled => h.spilled r hspilled hmem

end Placing

end Function

end Codegen
