import Codegen.Proofs.Allocation.Rounds
import Codegen.Proofs.Spill.Liveness

/-!
# The code of a round

The code that a round works on is that of the first round with some registers spilled: a list of
patched instructions (`Stage`). Spilling what a coloring left without a color leads to the next
round (`Stage.next`).
-/

namespace Codegen.Allocation

open Layout List

theorem mem_newRegs {l : Liveness} {fp r : Option Reg} {code : Code} :
    r ∈ newRegs l fp code ↔ r ∈ code.regs ∧ r ∉ l.regs ∧ r ≠ fp := by
  simp [newRegs]

/-- What a round starts from, if allocation began with `code₀` and the frame `f`. -/
structure Stage (cat : Catalog) (d : Dialect) (f : Frame) (code₀ : Code) (s₀ : Supply)
    (temps spilled : List (Option Reg)) (code : Code) (st : State) (bs : List Patch) : Prop where
  code_eq : code = Patch.codeAll d f.fp bs
  layout : Layout code₀ (slotsFor spilled f) s₀ bs st.supply
  frame : st.frame = some (withSlots f spilled.length)
  spilled : ∀ r ∈ spilled, r ∈ code₀.regs ∧ r ≠ f.fp ∧ r ∉ cat.regs
  /-- What is marked as made for spills was made since. -/
  fresh : ∀ r ∈ temps, ¬ s₀.Knows r
  /-- Everything that stands in for a spilled register is marked. -/
  marked : ∀ t ∈ Patch.temps bs, some t ∈ temps

namespace Stage

variable {cat : Catalog} {d : Dialect} {f : Frame} {code₀ code : Code} {s₀ : Supply} {k n : Nat}
  {temps spilled : List (Option Reg)} {st st' : State} {bs : List Patch} {g : Flow}

theorem init (cat : Catalog) (d : Dialect) (hf : st.frame = some f) (code : Code) :
    Stage cat d f code st.supply [] [] code st (code.map fun x => ⟨x, []⟩) where
  code_eq := (codeAll_init code).symm
  layout := Layout.init code st.supply
  frame := hf
  spilled r hr := by cases hr
  fresh r hr := by cases hr
  marked t ht := by
    obtain ⟨b, hb, a, ha, -⟩ := Patch.mem_temps.mp ht
    obtain ⟨x, -, rfl⟩ := mem_map.mp hb
    cases ha

theorem congr (h : Stage cat d f code₀ s₀ temps spilled code st bs) (hst : SameStore st st') :
    Stage cat d f code₀ s₀ temps spilled code st' bs :=
  { h with layout := hst.supply ▸ h.layout, frame := hst.frame.trans h.frame }

variable (h : Stage cat d f code₀ s₀ temps spilled code st bs)
include h

theorem mem_regs {y : Option Reg} (hy : y ∈ code.regs) :
    y = f.fp ∨ (∃ t ∈ Patch.temps bs, y = some t) ∨ y ∈ code₀.regs ∧ y ∉ spilled := by
  rw [h.code_eq] at hy
  have hmem := h.layout.mem_regs hy
  rwa [map_fst_slotsFor] at hmem

/-- Only registers that allocation began with are new to the marked ones. -/
theorem mem_code₀ {y : Option Reg} (hy : y ∈ code.regs) (hfp : y ≠ f.fp) (ht : y ∉ temps) :
    y ∈ code₀.regs ∧ y ∉ spilled := by
  rcases h.mem_regs hy with h1 | ⟨t, h1, rfl⟩ | h1
  · exact absurd h1 hfp
  · exact absurd (h.marked t h1) ht
  · exact h1

/-- The registers that are spilled next are among those that allocation began with. -/
theorem chosen (hnd : cat.regs.Nodup) (hg : Flow.ofCode code = .ok g)
    (hn : n ∈ (Coloring.ofCode cat k f.fp temps code g).run.1.nodes.list .spilled)
    (ht : (Coloring.ofCode cat k f.fp temps code g).temporaries.contains n = false) :
    ∃ r, (Coloring.ofCode cat k f.fp temps code g).live.Names n r ∧
      (r ∈ code₀.regs ∧ r ∉ spilled) ∧ r ≠ f.fp ∧ r ∉ cat.regs := by
  obtain ⟨hready, hdesc, -⟩ := Coloring.ready_ofCode hnd k f.fp temps hg
  obtain ⟨-, -, hlt, hp⟩ := hready.spilled_spec hn
  have hname := Liveness.names_reg hlt
  obtain ⟨hreg, hfp⟩ := (hdesc.named _).mp ⟨n, hname⟩
  refine ⟨_, hname, h.mem_code₀ hreg hfp fun hmem => ?_, hfp, fun hmem =>
    hp ((hready.paints.precolored_iff hname).mpr hmem)⟩
  rw [Coloring.contains_temporaries_ofCode.mpr ⟨hlt, hmem⟩] at ht
  cases ht

/-- Spilling what the coloring left without a color, or some of it, apart from what was made for
spills. -/
theorem next (hnd : cat.regs.Nodup) (hcode : ∀ r ∈ code₀.regs, s₀.Knows r) (hfp : s₀.Knows f.fp)
    (hg : Flow.ofCode code = .ok g) {c : Coloring}
    (hc : c = (Coloring.ofCode cat k f.fp temps code g).run.1) {ns : List Nat}
    (hns : ns.Sublist ((c.nodes.list .spilled).filter fun n => !c.temporaries.contains n))
    {rs : List (Option Reg)} (hrs : rs = ns.map c.live.reg) {code' : Code}
    (hcode' : code' = (Code.spillEach d.spillCode rs code (withSlots f spilled.length) st.supply).1)
    (hframe : st'.frame =
      some (Code.spillEach d.spillCode rs code (withSlots f spilled.length) st.supply).2.1)
    (hsupply : st'.supply =
      (Code.spillEach d.spillCode rs code (withSlots f spilled.length) st.supply).2.2) :
    ∃ bs', Stage cat d f code₀ s₀ (temps ++ newRegs c.live f.fp code') (spilled ++ rs) code' st'
      bs' := by
  obtain ⟨hready, hdesc, -⟩ := Coloring.ready_ofCode hnd k f.fp temps hg
  rw [hc] at hns hrs ⊢
  have hchosen : ∀ n ∈ ns, ∃ r, (Coloring.ofCode cat k f.fp temps code g).live.Names n r ∧
      (r ∈ code₀.regs ∧ r ∉ spilled) ∧ r ≠ f.fp ∧ r ∉ cat.regs := by
    intro n hn
    replace hn := hns.subset hn
    rw [mem_filter, hready.temporaries_run] at hn
    exact h.chosen hnd hg hn.1 (by simpa using hn.2)
  have hnodup : ns.Nodup := ((hready.wf_run.nodup _).filter _).sublist hns
  rw [hready.live_run] at hrs ⊢
  clear hns
  generalize (Coloring.ofCode cat k f.fp temps code g).live = l at hchosen hrs hdesc ⊢
  have hr : ∀ r ∈ rs, (r ∈ code₀.regs ∧ r ∉ spilled) ∧ r ≠ f.fp ∧ r ∉ cat.regs := by
    rw [hrs]
    intro r hr
    obtain ⟨n, hn, rfl⟩ := mem_map.mp hr
    obtain ⟨r, h1, h2⟩ := hchosen n hn
    rw [h1.reg_eq]
    exact h2
  have hrnd : rs.Nodup := by
    rw [hrs]
    refine List.Nodup.map_on (fun n hn n' hn' heq => ?_) hnodup
    obtain ⟨r, h1, -⟩ := hchosen n hn
    obtain ⟨r', h1', -⟩ := hchosen n' hn'
    rw [h1.reg_eq, h1'.reg_eq] at heq
    subst heq
    exact hdesc.inj h1 h1'
  have hfp' := fp_withSlots f spilled.length
  obtain ⟨bs', h1, h2⟩ := h.layout.spillEach (d := d) (f := withSlots f spilled.length)
    (fun r hr' => ⟨hcode r (hr r hr').1.1, by rw [map_fst_slotsFor]; exact (hr r hr').1.2,
      by rw [hfp']; exact (hr r hr').2.1⟩) hrnd
  rw [hfp', ← h.code_eq, ← slotsFor_append, ← hsupply] at h2
  rw [hfp', ← h.code_eq, ← hcode'] at h1
  have hframe' : st'.frame = some (withSlots f (spilled ++ rs).length) := by
    rw [hframe, frame_spillEach, length_append, withSlots_add]
  refine ⟨bs', h1, h2, hframe', fun r hr' => ?_, fun r hr' => ?_, fun t ht => ?_⟩
  · rcases mem_append.mp hr' with hr' | hr'
    · exact h.spilled r hr'
    · exact ⟨(hr r hr').1.1, (hr r hr').2⟩
  · rcases mem_append.mp hr' with hr' | hr'
    · exact h.fresh r hr'
    · -- what is new in the code was made just now
      obtain ⟨hmem, hnew, hne⟩ := mem_newRegs.mp hr'
      rw [hcode'] at hmem
      rcases Code.mem_regs_spillEach d.spillCode_local hmem with h3 | h3 | ⟨t, h3, rfl⟩
      · obtain ⟨n, hn⟩ := (hdesc.named r).mpr ⟨h3, hne⟩
        exact absurd (Array.mem_of_getElem? hn) hnew
      · exact absurd (h3.trans hfp') hne
      · exact fun hknown => (hknown.mono h.layout.grows).ne h3 rfl
  · rw [mem_append]
    by_cases hold : some t ∈ code.regs
    · have hmade := h2.made t ht
      rcases h.mem_regs hold with h3 | ⟨t', h3, h4⟩ | ⟨h3, -⟩
      · exact absurd h3.symm (hfp.ne hmade)
      · cases h4
        exact Or.inl (h.marked t h3)
      · exact absurd rfl ((hcode _ h3).ne hmade)
    · refine Or.inr (mem_newRegs.mpr
        ⟨?_, fun hmem => ?_, fun hne => hfp.ne (h2.made t ht) hne.symm⟩)
      · rw [h1]
        exact h2.temp_mem_regs ht
      · obtain ⟨n, hn⟩ := Array.getElem?_of_mem hmem
        exact hold ((hdesc.named _).mp ⟨n, hn⟩).1

end Stage

/-- The code of every round is the given one with some registers spilled. -/
theorem Starts.stage {cat : Catalog} {d : Dialect} {k n : Nat} {f : Frame} {code : Code} {st s : State}
    {x : Round} (hnd : cat.regs.Nodup) (hcode : ∀ r ∈ code.regs, st.supply.Knows r)
    (hfp : st.supply.Knows f.fp) (hf : st.frame = some f)
    (h : Starts cat d.spillCode k f.fp code st n x s) :
    ∃ bs, Stage cat d f code st.supply x.temps x.spilled x.code s bs := by
  induction h with
  | first => exact ⟨_, Stage.init cat d hf code⟩
  | next _ hgo ih =>
    obtain ⟨bs, hstage⟩ := ih
    obtain ⟨g, c, f', ns, rs, hg, -, hc, hf', -, hns, hrs, htemps, hspilled, hcode', hframe, hsupply⟩ :=
      hgo.spec hnd
    rw [hstage.frame] at hf'
    cases hf'
    rw [htemps, hspilled]
    exact hstage.next hnd hcode hfp hg hc (by rw [hns]) hrs hcode' hframe hsupply

end Codegen.Allocation
