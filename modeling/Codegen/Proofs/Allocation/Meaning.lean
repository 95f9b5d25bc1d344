import Codegen.Proofs.Allocation.Mapping
import Codegen.Proofs.Allocation.Stage
import Codegen.Proofs.Execution.Spilling
import Codegen.Target.Amd64

/-!
# Allocation preserves meaning

Whatever its instructions do, code runs the same after allocation (`allocate_preserves`): the code of
the result, with every register replaced through the map of the result, executes the same
instructions in the same order and with the same values, loads and stores of slots apart. The last
round's code is the given one with some registers spilled (`Stage`), which runs the same
(`Matches.run`), and its coloring keeps apart what is in use at the same time (`sound_resolve`), so
that it runs the same through the map (`run_mapRegs`).
-/

namespace Codegen.Allocation

open Execution Layout Pass List

/-! ### Slots -/

theorem ofNat_mul_ne_zero {n : Nat} {w : Int64} (hn : 0 < n) (hw : w ≠ 0)
    (hlt : n * w.toInt.natAbs < 2 ^ 64) : Int64.ofNat n * w ≠ 0 := by
  intro h
  have hmul : ((n : Int) * w.toInt).bmod (2 ^ 64) = 0 := by
    have := congrArg Int64.toInt h
    rwa [Int64.toInt_mul, Int64.toInt_ofNat', Int.bmod_mul_bmod, Int64.toInt_zero] at this
  obtain ⟨m, hm⟩ := Int.dvd_of_bmod_eq_zero hmul
  have habs : n * w.toInt.natAbs = 2 ^ 64 * m.natAbs := by
    have := congrArg Int.natAbs hm
    rwa [Int.natAbs_mul, Int.natAbs_mul] at this
  have hm0 : m.natAbs = 0 := by omega
  rw [hm0, Nat.mul_zero, Nat.mul_eq_zero] at habs
  have hw0 : w.toInt = 0 := by omega
  exact hw (Int64.toInt_inj.mp hw0)

theorem slotBytes_ne_zero (f : Frame) : f.slotBytes ≠ 0 := by
  unfold Frame.slotBytes
  split
  · decide
  · assumption

/-- The offsets of slots are multiples of their size below what was handed out before. -/
theorem mem_slotsFor {rs : List (Option Reg)} {f : Frame} {off : Int64}
    (h : off ∈ (slotsFor rs f).map Prod.snd) :
    ∃ n, 0 < n ∧ n ≤ rs.length ∧ off = -(f.size + Int64.ofNat n * f.slotBytes) := by
  induction rs generalizing f with
  | nil => cases h
  | cons r rest ih =>
    rcases mem_cons.mp h with rfl | h
    · exact ⟨1, Nat.one_pos, by simp, by simp [Frame.allocSlot]⟩
    · obtain ⟨n, h1, h2, rfl⟩ := ih h
      refine ⟨n + 1, by omega, by simpa using h2, ?_⟩
      show -(f.size + f.slotBytes + Int64.ofNat n * f.slotBytes) = _
      rw [Int64.ofNat_add]
      grind

/-- As long as there is room, no two slots are the same. -/
theorem nodup_slotsFor {rs : List (Option Reg)} {f : Frame}
    (h : rs.length * f.slotBytes.toInt.natAbs < 2 ^ 64) : ((slotsFor rs f).map Prod.snd).Nodup := by
  induction rs generalizing f with
  | nil => exact nodup_nil
  | cons r rest ih =>
    have hle : rest.length * f.slotBytes.toInt.natAbs ≤ (r :: rest).length * f.slotBytes.toInt.natAbs :=
      Nat.mul_le_mul_right _ (by simp)
    refine nodup_cons.mpr ⟨fun hmem => ?_, ih (Nat.lt_of_le_of_lt hle h)⟩
    obtain ⟨n, h1, h2, heq⟩ := mem_slotsFor hmem
    change -(f.size + f.slotBytes) = -(f.size + f.slotBytes + Int64.ofNat n * f.slotBytes) at heq
    refine ofNat_mul_ne_zero h1 (slotBytes_ne_zero f) ?_ (by grind)
    exact Nat.lt_of_le_of_lt (Nat.mul_le_mul_right _ h2) (Nat.lt_of_le_of_lt hle h)

/-! ### The result -/

variable {cat : Catalog} {d : Dialect} {k : Nat} {f : Frame} {code₀ code : Code} {s₀ : Supply}
  {temps spilled : List (Option Reg)} {st : State} {bs : List Patch}

/-- The result is read off a coloring of the code of a round. -/
def Finished (cat : Catalog) (d : Dialect) (k : Nat) (f : Frame) (code₀ : Code) (s₀ : Supply)
    (res : Result) : Prop :=
  ∃ temps st bs g, Stage cat d f code₀ s₀ temps res.spilled res.code st bs ∧
    Flow.ofCode res.code = .ok g ∧
    res.map = readColors cat (Coloring.ofCode cat k f.fp temps res.code g).run.1
      (List.range (Coloring.ofCode cat k f.fp temps res.code g).run.1.size) .empty

/-- The result of an allocation is read off a coloring of the code of its last round. -/
theorem allocate_finished {cfg : Config} {res : Result} {st' : State} (hnd : cat.regs.Nodup)
    (hcode : ∀ r ∈ code.regs, st.supply.Knows r) (hfp : st.supply.Knows f.fp)
    (hf : st.frame = some f) (hres : allocate cat d.spillCode cfg code st = .ok res st') :
    Finished cat d (cfg.colorCount cat.regs.length) f code st.supply res ∧
      st'.frame = some (withSlots f res.spilled.length) := by
  obtain ⟨n, x, s, g, c, hstart, hg, hs, -, hc, -, rfl⟩ := allocate_eq_ok hnd (by rw [hf]) rfl hres
  obtain ⟨bs, hstage⟩ := hstart.stage hnd hcode hfp hf
  exact ⟨⟨x.temps, s, bs, g, hstage, hg, hc ▸ rfl⟩, hs.frame.trans hstage.frame⟩

/-- Registers of the code of a round have different numbers, if those of the code before do. -/
theorem Stage.numbered (h : Stage cat d f code₀ s₀ temps spilled code st bs)
    (hold : ∀ r, some r ∈ f.fp :: code₀.regs → r.id < s₀.regs) (hnum : Numbered code₀ f.fp) :
    Numbered code f.fp := by
  have hcase : ∀ r, some r ∈ f.fp :: code.regs →
      some r ∈ f.fp :: code₀.regs ∨ s₀.Made st.supply r := by
    intro r hr
    rcases mem_cons.mp hr with hr | hr
    · exact Or.inl (mem_cons.mpr (Or.inl hr))
    · rcases h.mem_regs hr with h1 | ⟨t, h1, h2⟩ | ⟨h1, -⟩
      · exact Or.inl (mem_cons.mpr (Or.inl h1))
      · cases h2
        exact Or.inr (h.layout.made _ h1)
      · exact Or.inl (mem_cons_of_mem _ h1)
  intro r w hr hw hid
  rcases hcase r hr with hr | hr <;> rcases hcase w hw with hw | hw
  · exact hnum r w hr hw hid
  · have := hold r hr
    have := hw.le
    omega
  · have := hold w hw
    have := hr.le
    omega
  · exact hr.eq_of_id hw hid

/-- The machine starts as the code does: at the first instruction, with the frame pointer, each
register that is live there in its place and the memory as it is there. -/
structure Entry {V A : Type*} (addr : V → Int64 → A) (f : Frame) (code : Code) (res : Result)
    (c c' : Execution.Config V A) : Prop where
  pc : c.pc = some 0
  pc' : c'.pc = some 0
  frame : c'.regs f.fp = c.regs f.fp
  regs : ∀ r, code.LiveBefore r 0 → r ≠ f.fp → r ∉ res.spilled →
    c'.regs (r.map res.map.resolve) = c.regs r
  slot : ∀ p ∈ slotsFor res.spilled f, code.LiveBefore p.1 0 →
    c'.mem (addr (c.regs f.fp) p.2) = c.regs p.1
  mem : ∀ a ∉ places addr (c.regs f.fp) (slotsFor res.spilled f), c'.mem a = c.mem a

/-- What the code of the result needs is where the map says. -/
theorem Entry.agree {V A : Type*} {addr : V → Int64 → A} {res : Result}
    {c c' : Execution.Config V A} (h : Entry addr f code₀ res c c')
    (hs : Stage cat d f code₀ s₀ temps res.spilled res.code st bs)
    (hlab : ∀ x ∈ code₀, x.label ≠ none → x.reads = []) (hcode : ∀ r ∈ code₀.regs, s₀.Knows r)
    (hfp : s₀.Knows f.fp) :
    Agree (Option.map res.map.resolve) (Patch.codeAll d f.fp bs) f.fp { c' with regs := c.regs } c' where
  pc := rfl
  mem := rfl
  frame := h.frame
  regs i r hpc hl hr := by
    change c'.pc = some i at hpc
    rw [h.pc'] at hpc
    cases hpc
    have hmem := hl.mem_regs
    rw [← hs.code_eq] at hmem
    rcases hs.mem_regs hmem with h1 | ⟨t, h1, rfl⟩ | ⟨h1, h2⟩
    · exact absurd h1 hr
    · obtain ⟨b, hb, a, ha, rfl⟩ := Patch.mem_temps.mp h1
      obtain ⟨i, hi⟩ := mem_iff_getElem?.mp hb
      exact absurd hl (hs.layout.not_liveBefore_temp hcode hfp hlab hi ha)
    · refine h.regs r (hs.layout.liveBefore_entry hlab (hcode r h1) ?_ hr hl) hr h2
      rw [map_fst_slotsFor]
      exact h2

/-- Code runs the same after allocation, whatever its instructions do: the code of the result, with
registers replaced through its map, consists of the given instructions and of loads and stores of
slots, and visits the given ones in the same order, with the same values and, slots apart, the same
memory. It leaves the code just if the given code does. -/
theorem allocate_preserves {cat : Catalog} {d : Dialect} {cfg : Config} {code : Code}
    {st st' : State} {f : Frame} {g : Flow} {res : Result} (hnd : cat.regs.Nodup)
    (hf : st.frame = some f) (hfp : f.fp ∉ cat.regs) (hflow : Flow.ofCode code = .ok g)
    (hwrite : ∀ x ∈ code, f.fp ∉ x.writes) (hbranch : ∀ x ∈ code, x.dests ≠ [] → x.writes = [])
    (hlab : ∀ x ∈ code, x.label ≠ none → x.reads = [])
    (hold : ∀ r ∈ (f.fp :: code.regs).filterMap id, r.id < st.supply.regs)
    (hnum : ∀ r ∈ (f.fp :: code.regs).filterMap id, ∀ w ∈ (f.fp :: code.regs).filterMap id,
      r.id = w.id → r = w)
    (hres : allocate cat d.spillCode cfg code st = .ok res st')
    (hroom : res.spilled.length * f.slotBytes.toInt.natAbs < 2 ^ 64) :
    ∃ bs : List Patch, bs.map Patch.instr = code ∧ res.code = Patch.codeAll d f.fp bs ∧
      (∀ b ∈ bs, b.standIns.map StandIn.slot =
        (slotsFor res.spilled f).filter fun p => b.instr.mentions p.1) ∧
      ∀ (V A : Type) [Inhabited V] [DecidableEq A] (M : Nat → Meaning V A) (addr : V → Int64 → A)
        (c c' : Execution.Config V A), Copying code f.fp M → Function.Injective (addr (c.regs f.fp)) →
        Entry addr f code res c c' →
        (∀ n i x, (code.run M n c).1.pc = some i → code[i]? = some x →
          Avoids (M i) (places addr (c.regs f.fp) (slotsFor res.spilled f))
            (x.reads.map (code.run M n c).1.regs) (code.run M n c).1.mem) →
        ∀ n, ∃ n', n ≤ n' ∧
          let run := code.run M n c
          let run' := Code.run (res.code.map (Instr.mapRegs (Option.map res.map.resolve)))
            (Patch.meaning M addr bs) n' c'
          List.Forall₂ (SameVisit (places addr (c.regs f.fp) (slotsFor res.spilled f))) run.2
            (Patch.kept bs run'.2) ∧ (run'.1.pc = none ↔ run.1.pc = none) ∧
          ∀ a ∉ places addr (c.regs f.fp) (slotsFor res.spilled f), run'.1.mem a = run.1.mem a := by
  have hids : ∀ r, some r ∈ f.fp :: code.regs → r.id < st.supply.regs := fun r hr =>
    hold r (mem_filterMap.mpr ⟨some r, hr, rfl⟩)
  have hnumbered : Numbered code f.fp := fun r w hr hw =>
    hnum r (mem_filterMap.mpr ⟨some r, hr, rfl⟩) w (mem_filterMap.mpr ⟨some w, hw, rfl⟩)
  have hknows : ∀ r ∈ f.fp :: code.regs, st.supply.Knows r := by
    rintro _ hr r rfl _
    exact hids r hr
  have hknows_fp : st.supply.Knows f.fp := hknows f.fp mem_cons_self
  have hcode : ∀ r ∈ code.regs, st.supply.Knows r := fun r hr => hknows r (mem_cons_of_mem _ hr)
  obtain ⟨⟨temps, st₁, bs, g', hstage, hg', hmap⟩, -⟩ :=
    allocate_finished hnd hcode hknows_fp hf hres
  have hsound := sound_resolve hnd hg' (hstage.numbered hids hnumbered) rfl hmap hfp
  rw [hstage.code_eq] at hsound
  have hpatch : Patchable f.fp code (slotsFor res.spilled f) st.supply bs st₁.supply :=
    { hstage.layout with
      label := hlab
      branch := hbranch
      write := hwrite
      labels := (Flow.ofCode_isOk_iff.mp ⟨g, hflow⟩).1
      knows := hcode
      knows_fp := hknows_fp
      slot_ne := fun p hp => by
        refine (hstage.spilled p.1 ?_).2.1
        rw [← map_fst_slotsFor res.spilled f]
        exact mem_map_of_mem hp
      nodup_off := nodup_slotsFor hroom }
  refine ⟨bs, hpatch.instrs, hstage.code_eq, hpatch.slot, ?_⟩
  intro V A _ _ M addr c c' hM haddr hentry havoid n
  -- the given registers and the memory of the machine stand between the two
  have hmatch : Matches d f.fp addr (c.regs f.fp) code (slotsFor res.spilled f) bs c
      { c' with regs := c.regs } :=
    { pc := by rw [hentry.pc']; rw [hentry.pc]; rfl
      frame := rfl
      frame' := rfl
      regs := fun _ _ _ _ => rfl
      slot := fun i hi p hp hl => by
        rw [hentry.pc] at hi
        cases hi
        exact hentry.slot p hp hl
      mem := hentry.mem }
  obtain ⟨n', hle, hmatch', hvisits⟩ := hmatch.run hpatch haddr havoid n
  obtain ⟨hagree, hsame⟩ := run_mapRegs (hentry.agree hstage hlab hcode hknows_fp) hsound
    (hpatch.copying hM addr) hpatch.wellLabelled_labels (fun _ => hpatch.writes_codeAll) n'
  rw [← hstage.code_eq] at hagree hsame hmatch' hvisits
  refine ⟨n', hle, ?_, ?_, fun a ha => ?_⟩
  · rw [hsame]
    exact hvisits
  · rw [hagree.pc, hmatch'.pc, Option.map_eq_none_iff]
  · rw [hagree.mem, hmatch'.mem a ha]

/-- A machine with one allocatable register and a frame pointer, on which counting up is allocated. -/
def tinyMachine : Catalog :=
  { name := "tiny", machine := [⟨0, 0, "a"⟩, ⟨0, 1, "fp"⟩], regs := [some ⟨0, 0, "a"⟩] }

/-- A supply that has made two registers more, and a frame without slots. -/
def tinyState : State :=
  { supply := { labels := 1, regs := 4 }
    frame := some { label := ⟨0, 0, "top"⟩, fp := some ⟨0, 1, "fp"⟩, word := 8 } }

/-- Count up from a parameter, as often as the word at address one allows. -/
def countUp : Code :=
  [{ text := "copy &i0, &o0", reads := [some ⟨0, 2, ""⟩], writes := [some ⟨0, 3, ""⟩],
     isMove := true },
    { text := "top:", label := some ⟨0, 0, "top"⟩ },
    { text := "inc &o0", reads := [some ⟨0, 3, ""⟩], writes := [some ⟨0, 3, ""⟩] },
    { text := "loop &i0", reads := [some ⟨0, 2, ""⟩], dests := [some ⟨0, 0, "top"⟩], next := true },
    { text := "ret &i0", reads := [some ⟨0, 3, ""⟩] }]

/-- What its instructions do. -/
def countUpMeaning : Nat → Meaning Int Int
  | 2, ins, mem => ⟨fun _ => ins.headD 0 + 1, mem, .next⟩
  | 3, ins, mem =>
    ⟨fun _ => 0, Function.update mem 1 (mem 1 + 1), if mem 1 < ins.headD 0 then .dest 0 else .next⟩
  | _, ins, mem => ⟨fun _ => ins.headD 0, mem, .next⟩

/-- The parameter is three and the frame pointer is a hundred. -/
def countUpStart : Execution.Config Int Int :=
  { pc := some 0
    regs := fun r => if r = some ⟨0, 2, ""⟩ then 3 else if r = some ⟨0, 1, "fp"⟩ then 100 else 0
    mem := fun _ => 0 }

/-- The parameter is in its slot. -/
def countUpMachine : Execution.Config Int Int :=
  { pc := some 0
    regs := fun r => if r = some ⟨0, 1, "fp"⟩ then 100 else 7
    mem := fun a => if a = 92 then 3 else 0 }

theorem countUpMeaning_avoids (i : Nat) (ins : List Int) (mem : Int → Int) :
    Avoids (countUpMeaning i) {92, 84} ins mem := by
  intro mem' h
  have h1 : mem' 1 = mem 1 := h 1 (by decide)
  unfold countUpMeaning
  split
  · exact ⟨rfl, rfl, h, fun _ _ => rfl⟩
  · refine ⟨rfl, by rw [h1], fun a ha => ?_, fun a ha => ?_⟩
    · by_cases ha1 : a = 1
      · simp [ha1, h1]
      · simp [ha1, h a ha]
    · have ha1 : a ≠ 1 := by rintro rfl; revert ha; decide
      exact Function.update_of_ne ha1 _ _
  · exact ⟨rfl, rfl, h, fun _ _ => rfl⟩

theorem countUpMeaning_copying (fp : Option Reg) : Copying countUp fp countUpMeaning := by
  intro i x u d hx hc regs mem n hn
  have hmove := hc.isMove
  match i, hx with
  | 0, hx =>
    cases hx
    have hu : u = some ⟨0, 2, ""⟩ := mem_singleton.mp ((hc.reads u).mpr rfl).1
    rw [hu]
    rfl
  | 1, hx | 2, hx | 3, hx | 4, hx =>
    cases hx
    cases hmove

theorem countUp_preserved : ∃ res st' bs n',
    allocate tinyMachine Target.Amd64.dialect.spillCode {} countUp tinyState = .ok res st' ∧
      res.spilled = [some ⟨0, 2, ""⟩, some ⟨0, 3, ""⟩] ∧ bs.map Patch.instr = countUp ∧ 15 ≤ n' ∧
      List.Forall₂ (SameVisit {92, 84}) (countUp.run countUpMeaning 15 countUpStart).2
        (Patch.kept bs (Code.run (res.code.map (Instr.mapRegs (Option.map res.map.resolve)))
          (Patch.meaning countUpMeaning (fun v off => v + off.toInt) bs) n' countUpMachine).2) ∧
      (Code.run (res.code.map (Instr.mapRegs (Option.map res.map.resolve)))
        (Patch.meaning countUpMeaning (fun v off => v + off.toInt) bs) n' countUpMachine).1.pc =
          none := by
  have hrun : Ends (allocate tinyMachine Target.Amd64.dialect.spillCode {} countUp) tinyState
      (fun res _ => res.spilled = [some ⟨0, 2, ""⟩, some ⟨0, 3, ""⟩]) fun _ => False := by decide +kernel
  obtain ⟨res, st', hres, hspilled⟩ := hrun.returns
  obtain ⟨bs, h1, -, -, h2⟩ := allocate_preserves (g := ⟨#[[1], [2], [3], [4, 1], []],
    #[[], [0, 3], [1], [2], [3]]⟩) (by decide) rfl (by decide) rfl (by decide) (by decide)
    (by decide) (by decide) (by decide) hres (by rw [hspilled]; decide)
  have hplaces : places (fun v off => v + off.toInt) (countUpStart.regs (some ⟨0, 1, "fp"⟩))
      (slotsFor res.spilled ⟨⟨0, 0, "top"⟩, [], none, some ⟨0, 1, "fp"⟩, 8, 0⟩) =
        ({92, 84} : Set Int) := by
    rw [hspilled]
    ext a
    constructor
    · rintro ⟨p, hp, rfl⟩
      revert p
      decide
    · rintro (rfl | rfl)
      · exact ⟨(some ⟨0, 2, ""⟩, -8), by decide, by decide⟩
      · exact ⟨(some ⟨0, 3, ""⟩, -16), by decide, by decide⟩
  have hentry : Entry (fun v off => v + off.toInt)
      ⟨⟨0, 0, "top"⟩, [], none, some ⟨0, 1, "fp"⟩, 8, 0⟩ countUp res countUpStart countUpMachine := by
    refine ⟨rfl, rfl, rfl, fun r hr _ hns => ?_, ?_, fun a ha => ?_⟩
    · rw [hspilled] at hns
      have hall : ∀ r ∈ countUp.regs, r ∈ [some ⟨0, 2, ""⟩, some ⟨0, 3, ""⟩] := by decide
      exact absurd (hall r hr.mem_regs) hns
    · rw [hspilled]
      intro p hp hlive
      clear hlive
      revert p hp
      decide
    · rw [hplaces] at ha
      exact if_neg fun h => ha (Or.inl h)
  obtain ⟨n', h3, h4, h5, -⟩ := h2 Int Int countUpMeaning (fun v off => v + off.toInt) countUpStart
    countUpMachine (countUpMeaning_copying _)
    (fun a b hab => Int64.toInt_inj.mp (Int.add_left_cancel hab)) hentry
    (fun n i x _ _ => by rw [hplaces]; exact countUpMeaning_avoids i _ _) 15
  refine ⟨res, st', bs, n', hres, hspilled, h1, h3, ?_, h5.mpr (by rfl)⟩
  rw [← hplaces]
  exact h4

end Codegen.Allocation
