import Codegen.Proofs.Allocation.Invariant
import Codegen.Proofs.Allocation.Stage
import Codegen.Proofs.Coloring.Stuck

/-!
# Progress of allocation

If the registers of each single instruction fit, together with the machine registers in use around
it, allocation returns: a register that stands in for a spilled one meets only registers around its
own instruction, so it always finds a color (`Stage.fits`), and each round that does not end spills
at least one more of the registers that allocation began with.
-/

namespace Codegen.Allocation

open Pass Layout List

/-- Whether a register is neither the frame pointer nor a machine register. -/
def isVirtual (cat : Catalog) (fp r : Option Reg) : Bool :=
  r ≠ fp && !cat.regs.contains r && !r.any cat.isMachine

/-- The virtual registers of a list. -/
def virtuals (cat : Catalog) (fp : Option Reg) (rs : List (Option Reg)) : Finset (Option Reg) :=
  (rs.filter (isVirtual cat fp)).toFinset

/-- Whether a register is live before an instruction. -/
def isLiveBefore (l : Liveness) (i : Nat) (x : Instr) (r : Option Reg) : Bool :=
  x.reads.contains r || (l.regsAfter i).contains r && !x.writes.contains r

/-- The allocatable machine registers that are live before or after an instruction or that it
writes. -/
def held (cat : Catalog) (fp : Option Reg) (l : Liveness) (i : Nat) (x : Instr) :
    Finset (Option Reg) :=
  (cat.regs.filter fun r => r ≠ fp &&
    (isLiveBefore l i x r || (l.regsAfter i).contains r || x.writes.contains r)).toFinset

/-- The number of registers that an instruction needs at a time. -/
def pressure (cat : Catalog) (fp : Option Reg) (l : Liveness) (i : Nat) (x : Instr) : Nat :=
  (virtuals cat fp (x.reads ++ x.writes)).card + (held cat fp l i x).card

variable {cat : Catalog} {d : Dialect} {f : Frame} {code₀ code : Code} {s₀ : Supply} {k : Nat}
  {temps spilled : List (Option Reg)} {st : State} {bs : List Patch} {g g₀ : Flow}
  {fp r : Option Reg} {i : Nat} {x : Instr}

theorem mem_virtuals {rs : List (Option Reg)} :
    r ∈ virtuals cat fp rs ↔ r ∈ rs ∧ isVirtual cat fp r = true := by
  simp [virtuals]

/-- A register that is live after an instruction according to the code is so in the account. -/
theorem mem_regsAfter {l : Liveness} (hl : l.Describes code fp) (hr : code.LiveAfter r i)
    (hfp : r ≠ fp) : r ∈ l.regsAfter i := by
  obtain ⟨n, hn⟩ := (hl.named r).mpr ⟨hr.mem_regs, hfp⟩
  exact mem_map.mpr ⟨n, Bitmap.mem_toList.mpr ((hl.after i n).mpr ⟨r, hn, hr⟩), hn.reg_eq⟩

theorem mem_held {l : Liveness} (hl : l.Describes code fp) (hmem : r ∈ cat.regs) (hfp : r ≠ fp)
    (hr : r ∈ x.reads ∨ r ∈ x.writes ∨ code.LiveAfter r i) : r ∈ held cat fp l i x := by
  have hor : r ∈ x.reads ∨ r ∈ x.writes ∨ r ∈ l.regsAfter i :=
    hr.imp id fun h => h.imp id fun h => mem_regsAfter hl h hfp
  simp only [held, isLiveBefore, mem_toFinset, mem_filter, Bool.and_eq_true,
    Bool.or_eq_true, decide_eq_true_eq, contains_iff_mem]
  refine ⟨hmem, hfp, ?_⟩
  rcases hor with h | h | h
  · exact Or.inl (Or.inl (Or.inl h))
  · exact Or.inr h
  · exact Or.inl (Or.inr h)

/-- Code in which every instruction fits. -/
structure Fits (cat : Catalog) (fp : Option Reg) (k : Nat) (s₀ : Supply) (code₀ : Code) (g₀ : Flow) :
    Prop where
  flow : Flow.ofCode code₀ = .ok g₀
  label : ∀ x ∈ code₀, x.label ≠ none → x.reads = []
  machine : ∀ r, some r ∈ code₀.regs → cat.isMachine r = true → some r ∈ cat.regs ∨ some r = fp
  present : none ∈ code₀.regs → none = fp
  known : ∀ r ∈ code₀.regs, s₀.Knows r
  known_fp : s₀.Knows fp
  known_regs : ∀ r ∈ cat.regs, s₀.Knows r
  known_machine : Known cat s₀
  fit : ∀ i x, code₀[i]? = some x → pressure cat fp (.ofFlow g₀ code₀ fp) i x ≤ k

/-- What can not be allocated in code that passed the check is virtual. -/
theorem Admits.isVirtual (h : Admits cat fp code) (hr : r ∈ code.regs) (hfp : r ≠ fp)
    (hregs : r ∉ cat.regs) : isVirtual cat fp r = true := by
  unfold Allocation.isVirtual
  obtain ⟨v, rfl, hmach⟩ := h r hr hfp hregs
  simp [hfp, hregs, hmach]

theorem Fits.admits (h : Fits cat fp k s₀ code₀ g₀) : Admits cat fp code₀ := by
  intro r hr hfp hregs
  cases r with
  | none => exact absurd (h.present hr) hfp
  | some r =>
    refine ⟨r, rfl, Bool.eq_false_iff.mpr fun hm => ?_⟩
    rcases h.machine r hr hm with h1 | h1
    · exact hregs h1
    · exact hfp h1

/-! ### Registers that stand in find a color -/

/-- The registers that stand in at an instruction are no more than its virtual ones. -/
theorem Stage.length_standIns_le (h : Stage cat d f code₀ s₀ temps spilled code st bs)
    (hf : Fits cat f.fp k s₀ code₀ g₀) {b : Patch} (hb : b ∈ bs) :
    b.standIns.length ≤ (virtuals cat f.fp (b.instr.reads ++ b.instr.writes)).card := by
  have hnd := h.layout.nodup_reg hb
  rw [← length_map StandIn.reg, ← toFinset_card_of_nodup hnd]
  refine Finset.card_le_card fun r hr => ?_
  rw [mem_toFinset, h.layout.mem_reg hb, map_fst_slotsFor] at hr
  obtain ⟨h1, h2, h3⟩ := h.spilled r hr.1
  exact mem_virtuals.mpr ⟨mem_append.mpr (Instr.mentions_iff.mp hr.2), hf.admits.isVirtual h1 h2 h3⟩

/-- A conflict of two nodes is a place where their registers meet. -/
theorem meet_of_conflict {l : Liveness} (hl : l.Describes code fp) {j a b : Nat}
    (hj : j < l.refs.size) (hc : l.Conflict j a b ∨ l.Conflict j b a) :
    code.Meet (l.reg a) (l.reg b) := by
  rw [hl.size_refs] at hj
  have hx := getElem?_eq_getElem hj
  have hone : ∀ {a b}, l.Conflict j a b → l.reg a ∈ code[j].writes ∧ code.LiveAfter (l.reg b) j := by
    rintro a b ⟨h1, h2, -, -⟩
    obtain ⟨r, hr, -, hname⟩ := ((hl.refs hx).mem_defs a).mp h1
    obtain ⟨r', hname', hlive⟩ := (hl.after j b).mp h2
    rw [hname.reg_eq, hname'.reg_eq]
    exact ⟨hr, hlive⟩
  exact ⟨j, _, hx, hc.imp hone hone⟩

/-- The registers that a register standing in may have for neighbours: its likes at the same
instruction, and the machine registers in use around it. -/
def around (cat : Catalog) (fp : Option Reg) (l : Liveness) (i : Nat) (b : Patch) (a : StandIn) :
    Finset (Option Reg) :=
  (b.standIns.map fun a => some a.temp).toFinset.erase (some a.temp) ∪ held cat fp l i b.instr

section Round

variable (h : Stage cat d f code₀ s₀ temps spilled code st bs) (hf : Fits cat f.fp k s₀ code₀ g₀)
  {b : Patch} {a : StandIn}
include h hf

theorem Stage.card_around_lt (hb : bs[i]? = some b) (ha : a ∈ b.standIns) :
    (around cat f.fp (.ofFlow g₀ code₀ f.fp) i b a).card < k := by
  have hpress := hf.fit i b.instr (h.layout.getElem?_code hb)
  have hstand := h.length_standIns_le hf (mem_of_getElem? hb)
  have hlen := toFinset_card_le (b.standIns.map fun a => some a.temp)
  have herase := Finset.card_erase_lt_of_mem
    (mem_toFinset.mpr (mem_map_of_mem (f := fun a : StandIn => some a.temp) ha))
  rw [length_map] at hlen
  unfold pressure at hpress
  refine lt_of_le_of_lt (Finset.card_union_le _ _) ?_
  omega

/-- What is marked as made for spills and occurs in the code stands in somewhere. -/
theorem Stage.exists_standIn (hr : r ∈ code.regs) (hfp : r ≠ f.fp) (ht : r ∈ temps) :
    ∃ (i : Nat) (b : Patch) (a : StandIn), bs[i]? = some b ∧ a ∈ b.standIns ∧ r = some a.temp := by
  rcases h.mem_regs hr with h1 | ⟨t, h1, rfl⟩ | ⟨h1, -⟩
  · exact absurd h1 hfp
  · obtain ⟨b, hb, a, ha, rfl⟩ := Patch.mem_temps.mp h1
    obtain ⟨i, hi⟩ := mem_iff_getElem?.mp hb
    exact ⟨i, b, a, hi, ha, rfl⟩
  · exact absurd (hf.known r h1) (h.fresh r ht)

theorem Stage.mem_around (hb : bs[i]? = some b) (ha : a ∈ b.standIns) (hr : r ∈ code.regs)
    (hfp : r ≠ f.fp) (hne : r ≠ some a.temp) (hkind : r ∈ temps ∨ r ∈ cat.regs)
    (hm : code.Meet (some a.temp) r) :
    r ∈ around cat f.fp (.ofFlow g₀ code₀ f.fp) i b a := by
  rw [h.code_eq] at hm
  rw [around, Finset.mem_union]
  rcases hkind with hkind | hkind
  · obtain ⟨i', b', a', hb', ha', rfl⟩ := h.exists_standIn hf hr hfp hkind
    have hii := h.layout.eq_of_meet_temp hf.known hf.known_fp hf.label hb ha hb' ha' hm
    subst hii
    rw [hb] at hb'
    cases hb'
    exact Or.inl (Finset.mem_erase.mpr ⟨hne, mem_toFinset.mpr (mem_map.mpr ⟨a', ha', rfl⟩)⟩)
  · have hslot : r ∉ (slotsFor spilled f).map Prod.fst := by
      rw [map_fst_slotsFor]
      exact fun hs => (h.spilled r hs).2.2 hkind
    have hused := h.layout.used_of_meet_temp hf.known hf.known_fp hf.label
      (hf.known_regs r hkind) hslot hfp hb ha hm
    exact Or.inr (mem_held (Liveness.ofFlow_describes hf.flow f.fp) hkind hfp hused)

/-- A register that stands in has fewer neighbours than there are colors among its likes and the
machine registers. -/
theorem Stage.fits (hnd : cat.regs.Nodup) (hg : Flow.ofCode code = .ok g) {n : Nat}
    (hn : (Coloring.ofCode cat k f.fp temps code g).temporaries.contains n = true) (F : Finset Nat)
    (hF : ∀ y ∈ F, ((Coloring.ofCode cat k f.fp temps code g).temporaries.contains y = true ∨
        (Coloring.ofCode cat k f.fp temps code g).node y = .precolored) ∧
      ∃ j < (Coloring.ofCode cat k f.fp temps code g).live.refs.size,
        (Coloring.ofCode cat k f.fp temps code g).live.Conflict j n y ∨
          (Coloring.ofCode cat k f.fp temps code g).live.Conflict j y n) : F.card < k := by
  obtain ⟨hready, hdesc, -⟩ := Coloring.ready_ofCode hnd k f.fp temps hg
  -- the nodes in question by their registers
  have hname : ∀ y, (Coloring.ofCode cat k f.fp temps code g).temporaries.contains y = true ∨
      (Coloring.ofCode cat k f.fp temps code g).node y = .precolored →
      ∃ r, (Coloring.ofCode cat k f.fp temps code g).live.Names y r ∧ (r ∈ temps ∨ r ∈ cat.regs) := by
    rintro y (hy | hy)
    · obtain ⟨hlt, hmem⟩ := Coloring.contains_temporaries_ofCode.mp hy
      exact ⟨_, Liveness.names_reg hlt, Or.inl hmem⟩
    · obtain ⟨color, hcol⟩ := (hready.paints.node y).mp hy
      obtain ⟨r, hr, hname⟩ := hready.paints.colorOf.mp hcol
      exact ⟨r, hname, Or.inr (mem_of_getElem? hr)⟩
  obtain ⟨hlt, hmem⟩ := Coloring.contains_temporaries_ofCode.mp hn
  have hnn := Liveness.names_reg hlt
  obtain ⟨hreg, hfp⟩ := (hdesc.named _).mp ⟨n, hnn⟩
  obtain ⟨i, b, a, hb, ha, heq⟩ := h.exists_standIn hf hreg hfp hmem
  rw [heq] at hnn
  replace hF := fun y hy => (hF y hy).imp_left (hname y)
  generalize (Coloring.ofCode cat k f.fp temps code g).live = l at hdesc hnn hF
  have hinj : Set.InjOn l.reg F := by
    intro y hy y' hy' hyy
    obtain ⟨⟨r, h1, -⟩, -⟩ := hF y hy
    obtain ⟨⟨r', h2, -⟩, -⟩ := hF y' hy'
    rw [h1.reg_eq, h2.reg_eq] at hyy
    subst hyy
    exact hdesc.inj h1 h2
  have hsub : F.image l.reg ⊆ around cat f.fp (.ofFlow g₀ code₀ f.fp) i b a := by
    intro r hr
    obtain ⟨y, hy, rfl⟩ := Finset.mem_image.mp hr
    obtain ⟨⟨r, h1, hkind⟩, j, hj, hc⟩ := hF y hy
    obtain ⟨h2, h3⟩ := (hdesc.named r).mp ⟨y, h1⟩
    have hmeet := meet_of_conflict hdesc hj hc
    rw [hnn.reg_eq, h1.reg_eq] at hmeet
    rw [h1.reg_eq]
    refine h.mem_around hf hb ha h2 h3 (fun hra => ?_) hkind hmeet
    rw [hra] at h1
    have hyn := hdesc.inj h1 hnn
    rcases hc with hc | hc
    · exact hc.2.2.2 hyn
    · exact hc.2.2.2 hyn.symm
  calc F.card = (F.image l.reg).card := (Finset.card_image_of_injOn hinj).symm
    _ ≤ _ := Finset.card_le_card hsub
    _ < k := h.card_around_lt hf hb ha

end Round

/-! ### Every round that does not end spills more -/

/-- There are never more spilled registers than virtual ones to begin with. -/
theorem Stage.length_spilled_le (h : Stage cat d f code₀ s₀ temps spilled code st bs)
    (hadm : Admits cat f.fp code₀) :
    spilled.length ≤ ((virtuals cat f.fp code₀.regs).erase none).card := by
  have hnd := h.layout.nodup_slots
  rw [map_fst_slotsFor] at hnd
  rw [← toFinset_card_of_nodup hnd]
  refine Finset.card_le_card fun r hr => ?_
  obtain ⟨h1, h2, h3⟩ := h.spilled r (mem_toFinset.mp hr)
  obtain ⟨v, rfl, -⟩ := hadm r h1 h2 h3
  exact Finset.mem_erase.mpr ⟨nofun, mem_virtuals.mpr ⟨h1, hadm.isVirtual h1 h2 h3⟩⟩

/-- Where all instructions fit no round fails. -/
theorem Stage.not_fails {x : Round} {e : Failure}
    (h : Stage cat d f code₀ s₀ x.temps spilled x.code st bs) (hnd : cat.regs.Nodup) (hk : 0 < k)
    (hf : Fits cat f.fp k s₀ code₀ g₀) : ¬ Fails cat k f.fp x st e := by
  have hpresent : ∀ {r}, r ∈ x.code.regs → r ≠ f.fp → r ≠ none := by
    rintro r hr hfp rfl
    rcases h.mem_regs hr with h1 | ⟨t, -, h1⟩ | ⟨h1, -⟩
    · exact hfp h1
    · cases h1
    · exact hfp (hf.present h1)
  intro hfails
  cases hfails with
  | flow he =>
    have hwell : ∃ g, Flow.ofCode x.code = .ok g := by
      rw [Flow.ofCode_isOk_iff, h.code_eq]
      refine Patch.wellLabelled_codeAll ?_
      rw [h.layout.instrs]
      exact Flow.ofCode_isOk_iff.mp ⟨g₀, hf.flow⟩
    obtain ⟨g, hg⟩ := hwell
    cases hg.symm.trans he
  | @machine r h1 h2 h3 h4 =>
    rcases h.mem_regs h1 with h5 | ⟨t, h5, h6⟩ | ⟨h5, -⟩
    · exact h2 h5
    · cases h6
      rw [hf.known_machine.not_isMachine (h.layout.made _ h5)] at h4
      cases h4
    · exact (hf.machine r h5 h4).elim h3 h2
  | absent h1 h2 => exact hpresent h1 h2 rfl
  | @stuck g c first rest hg hc hfailed hall =>
    obtain ⟨hready, -, hkk⟩ := Coloring.ready_ofCode hnd k f.fp x.temps hg
    have hmem : first ∈ (Coloring.ofCode cat k f.fp x.temps x.code g).run.1.nodes.list .spilled := by
      rw [← hc, hfailed]
      exact mem_cons_self
    have hno := hready.not_spilled (by rw [hkk]; exact hk)
      (fun x hx F hF => by rw [hkk]; exact h.fits hf hnd hg hx F hF) hmem
    rw [← hready.temporaries_run, ← hc, hall first mem_cons_self] at hno
    cases hno
  | frameless _ _ _ hframe =>
    rw [h.frame] at hframe
    cases hframe

theorem colorCount_pos (cfg : Config) {n : Nat} (hn : 0 < n) : 0 < cfg.colorCount n := by
  unfold Config.colorCount
  split
  · exact hn
  · rename_i hc
    simp only [Bool.or_eq_true, decide_eq_true_eq, not_or] at hc
    omega

/-- Code in which every instruction fits is allocated, if the rounds that may be tried are more than
its virtual registers. -/
theorem Fits.ends_allocate {cfg : Config}
    (h : Fits cat f.fp (cfg.colorCount cat.regs.length) st.supply code₀ g₀) (hnd : cat.regs.Nodup)
    (hne : cat.regs ≠ []) (hf : st.frame = some f)
    (hrounds : (virtuals cat f.fp code₀.regs).card < cfg.rounds) :
    Ends (allocate cat d.spillCode cfg code₀) st (fun _ _ => True) fun _ => False := by
  have hk := colorCount_pos cfg (length_pos_of_ne_nil hne)
  refine (ends_allocate_iff (by rw [hf]) rfl (by omega)).mpr
    ((Starts.first.ends hnd (Nat.add_comm 1 _)).mono (fun _ _ _ => trivial) ?_)
  rintro e (⟨n, x, s, hstart, hfails⟩ | ⟨-, x, s, hstart⟩)
  · obtain ⟨bs, hstage⟩ := hstart.stage hnd h.known h.known_fp hf
    exact hstage.not_fails hnd hk h hfails
  · obtain ⟨bs, hstage⟩ := hstart.stage hnd h.known h.known_fp hf
    have := hstart.le_length_spilled hnd
    have := hstage.length_spilled_le h.admits
    have := Finset.card_erase_le (s := virtuals cat f.fp code₀.regs) (a := none)
    omega

/-- Allocation returns a result if every instruction fits by itself: the virtual registers that it
refers to, and the allocatable machine registers that are live before or after it or that it writes,
are no more than there are colors; and if the rounds that may be tried are more than the virtual
registers. The code has a flow graph, its instructions with labels read nothing, its machine
registers are allocatable or the frame pointer, and what it mentions is older than what the supply
still hands out. -/
theorem allocate_returns {cat : Catalog} {d : Dialect} {cfg : Config} {code : Code} {st : State}
    {f : Frame} {g : Flow} (hnd : cat.regs.Nodup) (hne : cat.regs ≠ []) (hf : st.frame = some f)
    (hflow : Flow.ofCode code = .ok g) (hlab : ∀ x ∈ code, x.label ≠ none → x.reads = [])
    (hmach : ∀ r ∈ code.regs.filterMap id, cat.isMachine r = true →
      some r ∈ cat.regs ∨ some r = f.fp)
    (hpresent : none ∈ code.regs → none = f.fp)
    (hfresh : ∀ r ∈ (code.regs ++ f.fp :: cat.regs).filterMap id ++ cat.machine,
      r.pool = st.supply.pool → r.id < st.supply.regs)
    (hfit : ∀ i x, code[i]? = some x →
      pressure cat f.fp (.ofFlow g code f.fp) i x ≤ cfg.colorCount cat.regs.length)
    (hrounds : (virtuals cat f.fp code.regs).card + 1 ≤ cfg.rounds) :
    ∃ res st', allocate cat d.spillCode cfg code st = .ok res st' := by
  have hknows : ∀ r ∈ code.regs ++ f.fp :: cat.regs, st.supply.Knows r := by
    rintro _ hr r rfl
    exact hfresh r (mem_append_left _ (mem_filterMap.mpr ⟨some r, hr, rfl⟩))
  have hfits : Fits cat f.fp (cfg.colorCount cat.regs.length) st.supply code g :=
    { flow := hflow
      label := hlab
      machine := fun r hr => hmach r (mem_filterMap.mpr ⟨some r, hr, rfl⟩)
      present := hpresent
      known := fun r hr => hknows r (by simp [hr])
      known_fp := hknows f.fp (by simp)
      known_regs := fun r hr => hknows r (by simp [hr])
      known_machine := fun r hr => hfresh r (mem_append_right _ hr)
      fit := hfit }
  obtain ⟨res, st', h, -⟩ := (hfits.ends_allocate hnd hne hf hrounds).returns
  exact ⟨res, st', h⟩

/-- Two values that are both live from the second instruction on, in a loop. -/
def twoValues : Code :=
  [{ text := "set &o0", writes := [some ⟨0, 2, ""⟩] },
    { text := "set &o0", writes := [some ⟨0, 3, ""⟩] },
    { text := "top:", label := some ⟨0, 0, "top"⟩ },
    { text := "inc &o0", reads := [some ⟨0, 2, ""⟩], writes := [some ⟨0, 2, ""⟩] },
    { text := "loop &i0", reads := [some ⟨0, 3, ""⟩], dests := [some ⟨0, 0, "top"⟩], next := true },
    { text := "ret &i0", reads := [some ⟨0, 2, ""⟩] }]

/-- A machine on which only one of them fits. -/
def twoValuesMachine : Catalog :=
  { name := "narrow", machine := [⟨0, 0, "a"⟩, ⟨0, 1, "fp"⟩], regs := [some ⟨0, 0, "a"⟩] }

/-- What the two values were taken from, and the frame they are moved to. -/
def twoValuesState : State :=
  { supply := { labels := 1, regs := 4 }
    frame := some { label := ⟨0, 0, "top"⟩, fp := some ⟨0, 1, "fp"⟩, word := 8 } }

theorem twoValues_returns :
    (∀ i x, twoValues[i]? = some x → pressure twoValuesMachine (some ⟨0, 1, "fp"⟩)
      (.ofFlow ⟨#[[1], [2], [3], [4], [5, 2], []], #[[], [0], [1, 4], [2], [3], [4]]⟩ twoValues
        (some ⟨0, 1, "fp"⟩)) i x ≤ 1) ∧
      ∃ res st', allocate twoValuesMachine Target.Amd64.dialect.spillCode { maxRounds := 3 } twoValues
        twoValuesState = .ok res st' := by
  have hflow : Flow.ofCode twoValues =
      .ok ⟨#[[1], [2], [3], [4], [5, 2], []], #[[], [0], [1, 4], [2], [3], [4]]⟩ := by rfl
  have hfit : ∀ i x, twoValues[i]? = some x → pressure twoValuesMachine (some ⟨0, 1, "fp"⟩)
      (.ofFlow ⟨#[[1], [2], [3], [4], [5, 2], []], #[[], [0], [1, 4], [2], [3], [4]]⟩ twoValues
        (some ⟨0, 1, "fp"⟩)) i x ≤ 1 := by
    have hall : ∀ p ∈ twoValues.zipIdx, pressure twoValuesMachine (some ⟨0, 1, "fp"⟩)
        (.ofFlow ⟨#[[1], [2], [3], [4], [5, 2], []], #[[], [0], [1, 4], [2], [3], [4]]⟩ twoValues
          (some ⟨0, 1, "fp"⟩)) p.2 p.1 ≤ 1 := by decide +kernel
    exact fun i x hx => hall (x, i) (mem_zipIdx_iff_getElem?.mpr hx)
  exact ⟨hfit, allocate_returns (by decide) (by decide) rfl hflow (by decide) (by decide) (by decide)
    (by decide) hfit (by decide)⟩

end Codegen.Allocation
