import Codegen.Proofs.Allocation.Meaning
import Codegen.Proofs.Allocation.Progress

/-!
# Rounds are bounded by the code

Each round that goes on moves virtual registers of the given code to the frame that were not moved
before, and none of them comes back (`Moved`). So the rounds that are started are at most one more
than the virtual registers, however many may be tried (`spilling_bounded`).
-/

namespace Codegen.Allocation

open Layout List

/-- The registers of `spilled` are different virtual registers of the given code, none occurs in the
current code, and each has a word of the frame. -/
structure Moved (cat : Catalog) (f : Frame) (code₀ : Code) (spilled : List (Option Reg)) (code : Code)
    (s : State) : Prop where
  nodup : spilled.Nodup
  isVirtual : ∀ r ∈ spilled, ∃ v, r = some v ∧ some v ∈ code₀.regs ∧ some v ≠ f.fp ∧
    some v ∉ cat.regs ∧ cat.isMachine v = false
  absent : ∀ r ∈ spilled, r ∉ code.regs
  frame : s.frame = some { f with size := f.size + Int64.ofNat spilled.length * f.slotBytes }

variable {cat : Catalog} {d : Dialect} {k n : Nat} {f : Frame} {code₀ code : Code} {s₀ : Supply}
  {temps spilled : List (Option Reg)} {st s s₁ : State} {bs : List Patch} {x : Round} {c : Coloring}
  {chosen : List Nat}

theorem Stage.moved (h : Stage cat d f code₀ s₀ temps spilled code s bs)
    (hcode : ∀ r ∈ code₀.regs, s₀.Knows r) (hadm : spilled ≠ [] → Admits cat f.fp code₀) :
    Moved cat f code₀ spilled code s := by
  refine ⟨?_, fun r hr => ?_, fun r hr hmem => ?_, ?_⟩
  · rw [← map_fst_slotsFor spilled f]
    exact h.layout.nodup_slots
  · obtain ⟨h1, h2, h3⟩ := h.spilled r hr
    obtain ⟨v, rfl, hv⟩ := hadm (ne_nil_of_mem hr) r h1 h2 h3
    exact ⟨v, rfl, h1, h2, h3, hv⟩
  · obtain ⟨h1, h2, -⟩ := h.spilled r hr
    rcases h.mem_regs hmem with h3 | ⟨t, h3, rfl⟩ | ⟨-, h3⟩
    · exact h2 h3
    · exact (hcode _ h1).ne (h.layout.made t h3) rfl
    · exact h3 hr
  · rw [h.frame, withSlots_eq]

section Rounds

variable (hnd : cat.regs.Nodup) (hcode : ∀ r ∈ code.regs, st.supply.Knows r)
  (hfp : st.supply.Knows f.fp) (hf : st.frame = some f)
  (h : Starts cat d.spillCode k f.fp code st n x s)
include hnd hcode hfp hf h

omit hcode hfp hf in
/-- What the check found in a round, it would have found in the first. -/
theorem Starts.admits (hadm : Admits cat f.fp x.code) : Admits cat f.fp code := by
  induction h with
  | first => exact hadm
  | next _ hgo ih =>
    obtain ⟨g, c, f', ns, rs, -, hadm', -⟩ := hgo.spec hnd
    exact ih hadm'

omit hcode hfp hf in
theorem Starts.admits_of_spilled (hne : x.spilled ≠ []) : Admits cat f.fp code := by
  cases h with
  | first => exact absurd rfl hne
  | next hx hgo =>
    obtain ⟨g, c, f', ns, rs, -, hadm, -⟩ := hgo.spec hnd
    exact hx.admits hnd hadm

theorem Starts.le_virtuals : n ≤ ((virtuals cat f.fp code.regs).erase none).card + 1 := by
  have hle := h.le_length_spilled hnd
  by_cases hne : x.spilled = []
  · rw [hne, length_nil] at hle
    omega
  · obtain ⟨bs, hstage⟩ := h.stage hnd hcode hfp hf
    have := hstage.length_spilled_le (h.admits_of_spilled hnd hne)
    omega

theorem Starts.not_mem_temps {r : Option Reg} (hr : r ∈ x.spilled) : r ∉ x.temps := by
  obtain ⟨bs, hstage⟩ := h.stage hnd hcode hfp hf
  exact fun ht => hstage.fresh r ht (hcode r (hstage.spilled r hr).1)

theorem Starts.moved : Moved cat f code x.spilled x.code s := by
  obtain ⟨bs, hstage⟩ := h.stage hnd hcode hfp hf
  exact hstage.moved hcode (h.admits_of_spilled hnd)

/-- Nothing else holds while a round moves its registers one after the other. -/
theorem Starts.moved_take (hatt : attempt cat k f.fp n x s = .ok (c, chosen) s₁) {i : Nat}
    {code' : Code} {s' : State}
    (hspill : spillAll d.spillCode c.live (chosen.take i) x.code s₁ = .ok code' s') :
    Moved cat f code (x.spilled ++ (chosen.take i).map c.live.reg) code' s' := by
  obtain ⟨bs, hstage⟩ := h.stage hnd hcode hfp hf
  obtain ⟨g, hg, hs, hadm, hc, hns, -⟩ := attempt_spec hnd hatt
  have hframe := (hstage.congr hs).frame
  have hends : Pass.Ends (spillAll d.spillCode c.live (chosen.take i) x.code) s₁
      (fun code' s' => Moved cat f code (x.spilled ++ (chosen.take i).map c.live.reg) code' s')
      fun _ => True := by
    refine ends_spillAll_frame _ hframe fun s' h1 h2 => ?_
    have hsub := (take_sublist i chosen).trans (by rw [hns])
    obtain ⟨bs', h3⟩ := (hstage.congr hs).next hnd hcode hfp hg hc hsub rfl rfl h1 h2
    exact h3.moved hcode fun _ => h.admits hnd hadm
  exact hends.of_ok hspill

end Rounds

/-- Rounds are bounded by the code. Whenever a round is started, and while one is moving registers to
the frame, the registers moved so far are different virtual registers of the given code, none of them
made for a spill, none occurs in the current code, and the frame has grown by a word for each. A round
that goes on moves at least one register, so at most one round more is started than there are virtual
registers, and if as many may be tried allocation never gives up because of their number. Registers
of the code are older than what the supply still hands out. -/
theorem spilling_bounded {cat : Catalog} {d : Dialect} {cfg : Config} {code : Code} {st : State}
    {f : Frame} (hnd : cat.regs.Nodup) (hf : st.frame = some f)
    (hold : ∀ r ∈ (f.fp :: code.regs).filterMap id,
      r.pool = st.supply.pool → r.id < st.supply.regs) :
    let k := cfg.colorCount cat.regs.length
    let count := ((virtuals cat f.fp code.regs).erase none).card
    (∀ n x s, Starts cat d.spillCode k f.fp code st n x s →
      Moved cat f code x.spilled x.code s ∧ (∀ r ∈ x.spilled, r ∉ x.temps) ∧ n ≤ count + 1 ∧
      (∀ x' s', GoesOn cat d.spillCode k f.fp n x s x' s' →
        ∃ rs, rs ≠ [] ∧ x'.spilled = x.spilled ++ rs) ∧
      (∀ c chosen s₁ i code' s', attempt cat k f.fp n x s = .ok (c, chosen) s₁ →
        spillAll d.spillCode c.live (chosen.take i) x.code s₁ = .ok code' s' →
        Moved cat f code (x.spilled ++ (chosen.take i).map c.live.reg) code' s') ∧
      (k ≠ 0 → n ≤ cfg.rounds + 1 → allocate cat d.spillCode cfg code st =
        rounds cat d.spillCode k f.fp cfg.rounds (cfg.rounds + 1 - n) x s)) ∧
    (∀ res st', allocate cat d.spillCode cfg code st = .ok res st' →
      Moved cat f code res.spilled res.code st' ∧ res.rounds ≤ res.spilled.length + 1 ∧
        res.rounds ≤ count + 1) ∧
    (count + 1 ≤ cfg.rounds → ∀ m st',
      allocate cat d.spillCode cfg code st ≠ .error (.error (.roundsSpent m)) st') := by
  intro k count
  have hknows : ∀ r ∈ f.fp :: code.regs, st.supply.Knows r := by
    rintro _ hr r rfl
    exact hold r (mem_filterMap.mpr ⟨some r, hr, rfl⟩)
  have hfp := hknows f.fp mem_cons_self
  have hcode : ∀ r ∈ code.regs, st.supply.Knows r := fun r hr => hknows r (mem_cons_of_mem _ hr)
  have halloc : k ≠ 0 → allocate cat d.spillCode cfg code st =
      rounds cat d.spillCode k f.fp cfg.rounds cfg.rounds { code } st := by
    intro hk
    rw [allocate_eq_rounds hk, hf]
    rfl
  refine ⟨fun n x s h => ⟨h.moved hnd hcode hfp hf, fun r => h.not_mem_temps hnd hcode hfp hf,
    h.le_virtuals hnd hcode hfp hf, fun x' s' hgo => ?_,
    fun c chosen s₁ i code' s' hatt => h.moved_take hnd hcode hfp hf hatt,
    fun hk hn => (halloc hk).trans (h.rounds_eq hn)⟩, fun res st' hres => ?_, fun hcount m st' hres => ?_⟩
  · obtain ⟨g, c, f', ns, rs, -, -, -, -, hne, -, hrs, -, hspilled, -⟩ := hgo.spec hnd
    refine ⟨rs, ?_, hspilled⟩
    rw [hrs]
    exact fun hnil => hne (map_eq_nil_iff.mp hnil)
  · obtain ⟨n, x, s, g, c, h, -, hs, -, -, -, rfl⟩ := allocate_eq_ok hnd (by rw [hf]) rfl hres
    have hmoved := h.moved hnd hcode hfp hf
    exact ⟨{ hmoved with frame := hs.frame.trans hmoved.frame }, h.le_length_spilled hnd,
      h.le_virtuals hnd hcode hfp hf⟩
  · have hk : k ≠ 0 := by
      intro hk
      change (if _ then _ else _ : Run Result) st = _ at hres
      rw [if_pos hk] at hres
      cases hres
    rw [halloc hk] at hres
    obtain ⟨x, s, h⟩ := Starts.of_roundsSpent hnd Starts.first (Nat.add_comm 1 _) hres
    have := h.le_virtuals hnd hcode hfp hf
    omega

/-- Counting up needs all three rounds that its two registers allow. -/
theorem countUp_bounded : ((virtuals tinyMachine (some ⟨0, 1, "fp"⟩) countUp.regs).erase none).card = 2 ∧
    ∃ res st',
      allocate tinyMachine Target.Amd64.dialect.spillCode { maxRounds := 3 } countUp tinyState =
          .ok res st' ∧
        res.rounds = 3 ∧ res.rounds ≤ res.spilled.length + 1 ∧
        Moved tinyMachine ⟨⟨0, 0, "top"⟩, [], none, some ⟨0, 1, "fp"⟩, 8, 0⟩ countUp res.spilled res.code
          st' := by
  have hrun : Pass.Ends (allocate tinyMachine Target.Amd64.dialect.spillCode { maxRounds := 3 } countUp)
      tinyState (fun res _ => res.rounds = 3) fun _ => False := by decide +kernel
  obtain ⟨res, st', hres, hrounds⟩ := hrun.returns
  have hold : ∀ r ∈ (some ⟨0, 1, "fp"⟩ :: countUp.regs).filterMap id,
      r.pool = tinyState.supply.pool → r.id < tinyState.supply.regs := by decide
  have hnd : tinyMachine.regs.Nodup := by decide
  obtain ⟨h1, h2, -⟩ := (spilling_bounded hnd rfl hold).2.1 res st' hres
  exact ⟨by decide +kernel, res, st', hres, hrounds, h2, h1⟩

end Codegen.Allocation
