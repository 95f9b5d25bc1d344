import Codegen.Proofs.Program.Placing

/-!
# Functions keep the registers that they have to

Whatever its instructions do, a compiled function that comes to its return has the callee-save registers
as they were when it was entered, and its result where it is returned (`Function.compile_keeps`).
-/

namespace Codegen

open Allocation Execution Layout Pass Selection Semantics List

/-! ### From the label to the return -/

/-- The code of a function goes from its label to the return. -/
theorem Target.exists_joined_eq (t : Target) (f : Frame) (ws : List Reg) (body deliver : Code)
    (result : Bool) :
    ∃ mid, t.joined f ws body deliver result = .place f.label :: (mid ++ [t.ret result]) := by
  refine ⟨(t.receive f).tail ++ t.saves ws ++ body ++ deliver ++ t.restores ws, ?_⟩
  simp only [joined, epilogue_eq, receive, cons_append, tail_cons, append_assoc]

namespace Function

theorem isSome_resultReg (fn : Function) (b : Bench) :
    (fn.resultReg b).isSome = fn.result.isPresent := by
  rw [resultReg]
  cases fn.result.isPresent <;> rfl

variable {t : Target} {env : Set Reg} {f : Frame} {fn : Function} {b b' : Bench} {names : List String}
  {base s : Supply} {ws : List Reg} {body deliver : Code} {result : Option Reg} {cfg : Config}
  {res : CompiledFunction} {bs : List Patch} {W : List (Instr × Option Patch.Origin)}

/-- What a function over virtual registers is compiled from. -/
theorem Portable.compile_parts (hfn : fn.Portable t env f b) (ht : t.Apt base names)
    (ht' : t.Parted names) (hconf : ∀ tpl ∈ t.catalog.templates, tpl.Confined)
    (hres : fn.compile t cfg b = .ok res b') :
    ∃ ws body deliver warnings b₁ bs W,
      fn.selected t b = .ok (f, t.joined f ws body deliver (fn.resultReg b).isSome, warnings) b₁ ∧
      Parts t names env f b.supply b₁.supply ws body deliver (fn.resultReg b) ∧
      Placing t f (t.joined f ws body deliver (fn.resultReg b).isSome) res bs ∧
      res.Stems t f (fn.resultReg b).isSome (t.joined f ws body deliver (fn.resultReg b).isSome) bs W := by
  have hends : Ends (fn.compile t cfg) b (fun res _ =>
      ∃ ws body deliver warnings b₁ f', f'.label = f.label ∧ res.code = t.finish f' res.alloc.code ∧
        fn.selected t b = .ok (f, t.joined f ws body deliver (fn.resultReg b).isSome, warnings) b₁ ∧
        Parts t names env f b.supply b₁.supply ws body deliver (fn.resultReg b) ∧
        Finished t.catalog t.dialect (cfg.colorCount t.catalog.regs.length) f
          (t.joined f ws body deliver (fn.resultReg b).isSome) b₁.supply res.alloc ∧
        Rebased t f res.alloc.map res.map) fun _ => True := by
    rw [compile, ends_bind]
    refine ends_of_forall ?_
    rintro ⟨f₁, code, warnings⟩ b₁ hsel
    obtain ⟨hf, hmachine, hframes, ws, body, deliver, hcode, hp⟩ :=
      (hfn.selected_parts ht hconf).of_ok hsel
    dsimp only at hf hcode ⊢
    rw [hf, hcode] at hsel ⊢
    have hknows := hp.knows_joined hfn ht ht'
    refine (allocated_finished hmachine (hframes ▸ hfn.frame) ht.nodup
      (fun r hr => hknows r (mem_cons_of_mem _ hr)) (hknows _ mem_cons_self) warnings).imp
      ?_
    rintro res - ⟨hfin, hmap, f', hlabel, hfinish⟩
    exact ⟨ws, body, deliver, warnings, b₁, f', hlabel, hfinish, hsel, hp, hfin, hmap⟩
  obtain ⟨ws, body, deliver, warnings, b₁, f', hlabel, hfinish, hsel, hp, hfin, hmap⟩ := hends.of_ok hres
  obtain ⟨bs, hplacing⟩ := hp.placing hfn ht ht' hfin hmap
  obtain ⟨mid, hjoined⟩ := t.exists_joined_eq f ws body deliver (fn.resultReg b).isSome
  obtain ⟨W, hstems⟩ := hplacing.stems hjoined (fun _ => ht'.mem_regs_of_ret ht) hlabel hfinish
  exact ⟨ws, body, deliver, warnings, b₁, bs, W, hsel, hp, hplacing, hstems⟩

/-- The code of a function arrives at its return with what it has to keep and to return. -/
theorem Parts.keeps {V A : Type} {addr : V → Int64 → A} {c₀ c : Execution.Config V A}
    {steps : List (Nat × Effect V A)} (hfn : fn.Portable t env f b) (ht : t.Apt base names)
    (ht' : t.Parted names) (hp : Parts t names env f b.supply s ws body deliver result)
    (hplacing : Placing t f (t.joined f ws body deliver result.isSome) res bs)
    (hstems : res.Stems t f result.isSome (t.joined f ws body deliver result.isSome) bs W)
    (hroom : res.alloc.spilled.length * f.slotBytes.toInt.natAbs < 2 ^ 64)
    (hpc₀ : c₀.pc = some 0) (haddr : Function.Injective (addr (c₀.regs (some t.fp))))
    (hrun : Code.Conduct (res.code.map (Instr.mapRegs (Option.map res.map.resolve)))
      (Patch.AllowsAt (Option.map res.map.resolve) f.fp addr (slotsFor res.alloc.spilled f) W) c₀ steps c)
    (hpc : c.pc = some (res.code.length - 1)) :
    (∀ r ∈ t.catalog.calleeSave, c.regs r = c₀.regs r) ∧
      ∀ q, result = some q → ∃ front j saved before v,
        t.joined f ws body deliver result.isSome = front ++ j :: t.epilogue saved true ∧
        IsCopy t.catalog.result (some q) j ∧ before <+: steps ∧
        Code.Conduct (t.joined f ws body deliver result.isSome)
          (Code.Copied (t.joined f ws body deliver result.isSome) f.fp)
          ⟨some 0, Patch.gather (Option.map res.map.resolve) addr (c₀.regs (some t.fp))
            (slotsFor res.alloc.spilled f) c₀, c₀.mem⟩ (Patch.keptSteps W before) v ∧
        v.pc = some front.length ∧ c.regs t.catalog.result = v.regs (some q) := by
  obtain ⟨mid, hjoined⟩ := t.exists_joined_eq f ws body deliver result.isSome
  obtain ⟨s₁, s₂, hlay⟩ := hplacing.patchable hroom
  rw [hstems.code] at hrun hpc
  rw [length_map] at hpc
  obtain ⟨v, hv, hvpc, hregs⟩ := hplacing.arrive hroom hstems.padded
    (.place f.label :: mid) hjoined
    (fun r hr => hr.elim (ht'.mem_regs_of_ret ht) nofun) hpc₀ haddr hrun hpc
  refine ⟨fun r hr => ?_, fun q hq => ?_⟩
  · obtain ⟨w, hw⟩ := hp.exists_shelf hr
    obtain ⟨p, hshelves⟩ := hp.shelved hfn ht ht' hw
    obtain ⟨hend, hbegin⟩ := hregs r (mem_append_left _ hr)
    rw [hend, (hshelves.holds hlay.labels rfl hv).1, hbegin]
  · obtain ⟨front, j, hcode, hj, hover⟩ := hp.handsOver hfn ht ht' hq
    -- the return stands behind the copy
    have hlt : front.length < (Instr.place f.label :: mid).length := by
      have hlen := congrArg List.length (hcode.symm.trans hjoined)
      rw [length_append, length_cons, Target.epilogue, length_append,
        ← cons_append, length_append] at hlen
      simp only [length_cons, length_nil] at hlen ⊢
      omega
    obtain ⟨kept, v₁, hkept, hv₁, hpc₁, heq⟩ := hover.holds hlay.labels rfl hv hvpc hlt
    obtain ⟨before, hbefore, rfl⟩ := prefix_filterMap_iff.mp hkept
    refine ⟨front, j, _, before, v₁, hcode, hj, hbefore, hv₁, hpc₁, ?_⟩
    rw [← heq]
    refine (hregs _ (mem_append_right _ ?_)).1
    rw [hq]
    exact mem_singleton_self _

/-- A compiled function keeps the callee-save registers and returns its result, for both machines and
however registers are allocated. Its trees name only virtual registers and its frame pointer. Its
instructions may do anything, as long as they write only their registers and no slot, moves copy, and
loads and stores go to their slots; so there is always something to do, and any way to go on. Where the
code comes from its label to the return, every callee-save register is as it was, and the register for
results holds what the virtual register of the result held behind the body, where the code that was
selected runs with the same effects. -/
theorem compile_keeps (a : Arch) (s : Supply) {fn : Function} {b b' : Bench} {env : Set Reg} {f : Frame}
    {cfg : Config} {res : CompiledFunction} (hfn : fn.Portable (a.make s).1 env f b)
    (hres : fn.compile (a.make s).1 cfg b = .ok res b') :
    let t := (a.make s).1
    let φ := Option.map res.map.resolve
    let slots := slotsFor res.alloc.spilled f
    ∃ code warnings b₁ bs W, fn.selected t b = .ok (f, code, warnings) b₁ ∧
      res.Stems t f fn.result.isPresent code bs W ∧
      ∀ (V A : Type) (addr : V → Int64 → A) (c₀ : Execution.Config V A),
        Function.Injective (addr (c₀.regs (some t.fp))) →
        (∀ i way, ∃ e, e.way = way ∧ Patch.AllowsAt φ f.fp addr slots W i c₀ e) ∧
        (res.alloc.spilled.length * f.slotBytes.toInt.natAbs < 2 ^ 64 → c₀.pc = some 0 →
        ∀ steps c, Code.Conduct (res.code.map (Instr.mapRegs φ)) (Patch.AllowsAt φ f.fp addr slots W)
          c₀ steps c → c.pc = some (res.code.length - 1) →
        (∀ r ∈ t.catalog.calleeSave, c.regs r = c₀.regs r) ∧
        ∀ q, fn.resultReg b = some q → ∃ front j saved before v,
          code = front ++ j :: t.epilogue saved true ∧ IsCopy t.catalog.result (some q) j ∧
          before <+: steps ∧
          code.Conduct (code.Copied f.fp)
            ⟨some 0, Patch.gather φ addr (c₀.regs (some t.fp)) slots c₀, c₀.mem⟩
            (Patch.keptSteps W before) v ∧
          v.pc = some front.length ∧ c.regs t.catalog.result = v.regs (some q)) := by
  intro t φ slots
  have ht : t.Apt (a.make s).2 a.callerSaveNames := a.apt_make s
  have ht' : t.Parted a.callerSaveNames := a.parted_make s
  obtain ⟨ws, body, deliver, warnings, b₁, bs, W, hsel, hp, hplacing, hstems⟩ :=
    hfn.compile_parts ht ht' (fun _ h => Arch.confined_of_mem h) hres
  refine ⟨_, warnings, b₁, bs, W, hsel, isSome_resultReg fn b ▸ hstems, ?_⟩
  intro V A addr c₀ haddr
  have hfp : φ f.fp = some t.fp := hplacing.resolve_fp
  refine ⟨hstems.padded.exists_allowsAt φ slots c₀ (hfp ▸ haddr), ?_⟩
  intro hroom hpc₀ steps c hrun hpc
  exact hp.keeps hfn ht ht' hplacing hstems hroom hpc₀ haddr hrun hpc

/-- A function that is built after its target is over virtual registers, if its frame is one of the target
and its trees name registers that came since. -/
theorem virtual_of_made {a : Arch} {s s₁ s₂ : Supply} {fn : Function} {b : Bench} {f : Frame} {n : Nat}
    {nested : Bool} {rs parents : List Reg} (hf : (a.make s).1.Framed f n nested s₁ s₂ rs parents)
    (hs₁ : (a.make s).2.Grows s₁) (hs₂ : s₂.Grows b.supply) (hmachine : b.machine = none)
    (hframe : b.frames[fn.frame]? = some f)
    (hregs : ∀ r ∈ regsIn fn.body ++ regsOf fn.result,
      r = some (a.make s).1.fp ∨ ∃ q, r = some q ∧ (a.make s).2.Made b.supply q)
    (hdsts : some (a.make s).1.fp ∉ fn.body.dsts ++ fn.result.dsts) :
    fn.Portable (a.make s).1
      ({q | q ∈ (a.make s).1.catalog.machine} ∪ {q | (a.make s).2.Made b.supply q}) f b := by
  have hown {q : Reg} (hq : (a.make s).2.Made b.supply q) : Own (a.make s).1
      ({q | q ∈ (a.make s).1.catalog.machine} ∪ {q | (a.make s).2.Made b.supply q}) f (some q) := by
    rintro _ ⟨⟩
    refine ⟨.inr hq, Arch.isMachine_of_made hq, fun heq => ?_⟩
    have hm := (a.apt_make s).fp_isMachine
    rw [Option.some_injective _ (hf.fp.symm.trans heq), Arch.isMachine_of_made hq] at hm
    cases hm
  refine ⟨hmachine, hframe, (a.owns_make s).grow ((hs₁.trans hf.handsOut.grows).trans hs₂),
    fun q => .inl, .inl hf.fp, fun q hq => ?_, fun r hr => ?_, hf.fp ▸ hdsts⟩
  · refine hown ((hf.handsOut.made q ?_).mono hs₁ hs₂)
    obtain hq | hq := mem_append.mp hq
    · rw [hf.params, mem_append, mem_map, mem_map] at hq
      obtain ⟨_, hmem, ⟨⟩⟩ | ⟨i, -, hi⟩ := hq
      · exact mem_append_left _ hmem
      · cases hi
    · rw [hf.parent, Option.mem_toList, head?_map] at hq
      obtain ⟨_, hmem, ⟨⟩⟩ := Option.map_eq_some_iff.mp hq
      exact mem_append_right _ (mem_of_mem_head? hmem)
  · obtain rfl | ⟨q, rfl, hq⟩ := hregs r hr
    · exact .inl hf.fp.symm
    · exact .inr (hown hq)

theorem dividing_keeps :
    let t := (Arch.amd64.make {}).1
    ∃ env f cfg res b', dividing.Portable t env f (dividingBench t) ∧
      dividing.compile t cfg (dividingBench t) = .ok res b' ∧
      ∃ code bs W, res.Stems t f true code bs W ∧
        ∀ c₀ : Execution.Config Int Int,
          (∀ i way, ∃ e, e.way = way ∧ Patch.AllowsAt (Option.map res.map.resolve) f.fp
            (fun v off => v + off.toInt) (slotsFor res.alloc.spilled f) W i c₀ e) ∧
          (res.alloc.spilled.length * f.slotBytes.toInt.natAbs < 2 ^ 64 → c₀.pc = some 0 →
          ∀ steps c, Code.Conduct (res.code.map (Instr.mapRegs (Option.map res.map.resolve)))
            (Patch.AllowsAt (Option.map res.map.resolve) f.fp (fun v off => v + off.toInt)
              (slotsFor res.alloc.spilled f) W) c₀ steps c →
          c.pc = some (res.code.length - 1) → ∀ r ∈ t.catalog.calleeSave, c.regs r = c₀.regs r) := by
  intro t
  have hparams : t.regParams = 6 := by
    rw [Target.regParams, (Arch.params_make .amd64 {}).1, length_map]
    rfl
  -- the function is over virtual registers
  obtain ⟨rs, parents, hnew⟩ := t.newFrame_framed "dividing" 7 true { regs := 16 }
  have hlater : (t.newFrame "dividing" 7 true { regs := 16 }).2.Grows { labels := 3, regs := 24 } := by
    rw [supply_dividing hparams]
    exact ⟨rfl, Nat.le_succ _⟩
  have hregs : ∀ r ∈ regsIn dividing.body ++ regsOf dividing.result,
      r = some ⟨0, 14, "%rbp"⟩ ∨ r = some ⟨0, 23, ""⟩ := by decide
  have hdsts : some ⟨0, 14, "%rbp"⟩ ∉ dividing.body.dsts ++ dividing.result.dsts := by decide
  have hportable : dividing.Portable t ({q | q ∈ t.catalog.machine} ∪
      {q | Supply.Made { regs := 16 } { labels := 3, regs := 24 } q})
      { (t.newFrame "dividing" 7 true { regs := 16 }).1 with size := 8 } (dividingBench t) :=
    virtual_of_made (b := dividingBench t) (hnew.resize 8) (.refl _) hlater rfl rfl
      (fun r hr => (hregs r hr).imp_right fun h => ⟨_, h, rfl, rfl, by decide, by decide⟩) hdsts
  -- and it is compiled
  have ht : t.Apt { regs := 16 } Arch.amd64.callerSaveNames := Arch.amd64.apt_make {}
  obtain ⟨⟨f, code, warnings⟩, b₁, hsel, hf, hfp, hb₁, hframes, g, hfits⟩ :=
    (selected_fits ht (dividing_wellFormed ht rfl hparams)).returns
  have hends : Ends (dividing.compile t
      { maxRounds := (virtuals t.catalog (some t.fp) code.regs).card + 1 }) (dividingBench t)
      (fun _ _ => True) fun _ => False := by
    rw [compile, ends_bind]
    exact ends_of_eq hsel (allocated_ends ht hb₁ (hframes ▸ hf) hfp hfits rfl (Int.lt_succ _) warnings)
  obtain ⟨res, b', hcompile, -⟩ := hends.returns
  obtain ⟨code, warnings, b₁, bs, W, -, hstems, hkeeps⟩ := compile_keeps .amd64 {} hportable hcompile
  refine ⟨_, _, _, res, b', hportable, hcompile, code, bs, W, hstems, ?_⟩
  intro c₀
  obtain ⟨hallows, hend⟩ := hkeeps Int Int (fun v off => v + off.toInt) c₀ fun _ _ h =>
    Int64.toInt_inj.mp (Int.add_left_cancel h)
  exact ⟨hallows, fun hroom hpc₀ steps c hrun hpc => (hend hroom hpc₀ steps c hrun hpc).1⟩

end Function

end Codegen
