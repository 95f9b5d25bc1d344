import Codegen.Proofs.Allocation.Complete
import Codegen.Proofs.Coloring.Renaming

/-!
# Allocation under other registers

Allocation sees that registers are different, and which of them are machine registers, but not what
they are called or how they are numbered: two allocations of the same code under different names go
side by side through all rounds (`Hides.alike_rounds`), and what they return and print is the same
apart from the names (`allocate_renamed`).
-/

namespace Codegen

open List

/-- The failure with the registers that allocation reports replaced. -/
def Failure.mapRegs (φ : Option Reg → Option Reg) : Failure → Failure
  | .error e => .error (e.mapRegs φ)
  | .trap => .trap

theorem Failure.kind?_mapRegs (φ : Option Reg → Option Reg) (e : Failure) :
    (e.mapRegs φ).kind? = e.kind? := by
  rcases e with e | -
  · cases e <;> rfl
  · rfl

/-- The renaming for the registers that a supply has handed out; the others stay as they are. -/
def Supply.renameOld (s : Supply) (p : Reg → Reg) (r : Reg) : Reg :=
  if r.id < s.regs then p r else r

/-- The second map sends the renamed registers to what the first one sends the registers to, and
nothing else. -/
structure RegMap.Renamed (regs : Set Reg) (q : Reg → Reg) (m m' : RegMap) : Prop where
  get : ∀ r ∈ regs, m'.get? (q r) = m.get? r
  only : ∀ v, (∀ r ∈ regs, (q r).id ≠ v.id) → m'.get? v = none

/-! ### The listing -/

section Listing

variable {q : Reg → Reg} {m m' : RegMap}

theorem Instr.slotRegs_mapRegs {φ : Option Reg → Option Reg} (x : Instr) (letter : Char) :
    (x.mapRegs φ).slotRegs letter = (x.slotRegs letter).map (List.map φ) := by
  unfold slotRegs
  split
  · rfl
  · split <;> rfl

theorem Instr.mem_of_slotRegs {x : Instr} {letter : Char} {regs : List (Option Reg)} {r : Option Reg}
    (h : x.slotRegs letter = some regs) (hr : r ∈ regs) : r ∈ x.reads ∨ r ∈ x.writes := by
  unfold slotRegs at h
  split at h
  · cases h
    exact Or.inl hr
  · split at h
    · cases h
      exact Or.inr hr
    · cases h

/-- An instruction is printed in the same way if its registers are. -/
theorem Instr.fill_mapRegs {x : Instr}
    (hx : ∀ r, some r ∈ x.reads ∨ some r ∈ x.writes →
      (m'.resolve (q r)).text = (m.resolve r).text) (cs : List Char) :
    (x.mapRegs (Option.map q)).fill m' cs = x.fill m cs := by
  fun_induction Instr.fill x m cs with
  | case1 => simp only [fill]
  | case2 letter rest regs n hn hregs hr ih =>
    rw [fill, slotRegs_mapRegs, hregs, hn]
    simp only [Option.map_some, getElem?_map, hr, Option.map_none, ih]
  | case3 letter rest regs n hn hregs hr =>
    rw [fill, slotRegs_mapRegs, hregs, hn]
    simp only [Option.map_some, getElem?_map, hr, Option.map_none]
  | case4 letter rest regs n hn hregs r hr ih =>
    rw [fill, slotRegs_mapRegs, hregs, hn]
    simp only [Option.map_some, getElem?_map, hr, ih,
      hx r (mem_of_slotRegs hregs (mem_of_getElem? hr))]
  | case5 letter rest hnot ih =>
    rw [fill, slotRegs_mapRegs]
    cases hregs : x.slotRegs letter with
    | none => simp only [Option.map_none, ih]
    | some regs =>
      cases hn : Text.readNat? (rest.takeWhile Char.isDigit) with
      | none => simp only [Option.map_some, ih]
      | some n => exact (hnot regs n hregs hn).elim
  | case6 c rest hnot ih =>
    rw [fill, ih]
    exact hnot

theorem Code.render_mapRegs {code : Code}
    (hcode : ∀ r, some r ∈ code.regs → (m'.resolve (q r)).text = (m.resolve r).text) :
    Code.render m' (code.map (Instr.mapRegs (Option.map q))) = Code.render m code := by
  induction code with
  | nil => rfl
  | cons x rest ih =>
    obtain ⟨⟨hreads, hwrites⟩, hrest⟩ := Code.forall_mem_regs_cons.mp fun o ho r (hr : o = some r) =>
      hcode r (hr ▸ ho)
    rw [map_cons]
    unfold Code.render Instr.render
    rw [Instr.fill_mapRegs fun r hr => hr.elim (hreads _ · r rfl) (hwrites _ · r rfl),
      ih fun r hr => hrest _ hr r rfl]
    rfl

end Listing

namespace Allocation

open Pass

/-- Two states of allocation with the same frame and supply, of which the second was told the same
as the first since the beginning, but about other registers. -/
structure Retold (φ : Option Reg → Option Reg) (base : Array Event) (s t : State) : Prop where
  supply : t.supply = s.supply
  frame : t.frame = s.frame
  log : ∃ new, s.log = base ++ new ∧ t.log = base ++ new.map (Event.mapRegs φ)

/-- Both allocations fail, and report the same about different registers. -/
def BothFail (φ : Option Reg → Option Reg) (base : Array Event) (e : Failure) (s : State) (f : Failure)
    (t : State) : Prop :=
  f = e.mapRegs φ ∧ Retold φ base s t

variable {cat : Catalog} {φ : Option Reg → Option Reg} {base : Array Event} {s t : State}

theorem alike_tell {ok : Unit → State → Unit → State → Prop} {events : Array Event} {events' : Array Event}
    {err : Failure → State → Failure → State → Prop}
    (h : Retold φ base s t) (heq : events' = events.map (Event.mapRegs φ))
    (hok : ∀ s' t', Retold φ base s' t' → SameStore s s' → ok () s' () t') :
    Alike (tell events) (tell events') s t ok err := by
  obtain ⟨hsupply, hframe, new, h1, h2⟩ := h
  refine alike_modify (hok _ _ ⟨hsupply, hframe, new ++ events, ?_, ?_⟩ ⟨rfl, rfl⟩)
  · rw [h1, Array.append_assoc]
  · rw [h2, heq, Array.append_assoc, Array.map_append]

/-- What a round works on, with its registers replaced. -/
def Round.mapRegs (φ : Option Reg → Option Reg) (x : Round) : Round :=
  ⟨x.temps.map φ, x.spilled.map φ, x.code.map (Instr.mapRegs φ)⟩

/-- The second result is the first one with its registers renamed. -/
structure Result.Renamed (q : Reg → Reg) (res res' : Result) : Prop where
  code : res'.code = res.code.map (Instr.mapRegs (Option.map q))
  rounds : res'.rounds = res.rounds
  spilled : res'.spilled = res.spilled.map (Option.map q)
  coalesced : res'.coalesced = res.coalesced.map (List.map (Option.map q))
  map : res.map.Renamed {r | some r ∈ res.code.regs} q res'.map

/-- A renaming of registers that allocation can not tell: it keeps registers and their numbers apart,
leaves the frame pointer and what the supply hands out alone, and takes no register to the machine or
from it. -/
structure Hides (cat : Catalog) (fp : Option Reg) (s₀ : Supply) (env : Set Reg) (q : Reg → Reg) :
    Prop where
  injOn : Set.InjOn q env
  numbers : ∀ r ∈ env, ∀ w ∈ env, (q r).id = (q w).id ↔ r.id = w.id
  fp : ∀ r, fp = some r → r ∈ env ∧ q r = r
  regs : ∀ r ∈ env, ∀ v, some v ∈ cat.regs → (q r = v ↔ r = v)
  machine : ∀ r ∈ env, cat.isMachine (q r) = cat.isMachine r
  made : ∀ s r, s₀.Made s r → r ∈ env ∧ q r = r

/-- Registers from a set, or none. -/
def From (env : Set Reg) : Set (Option Reg) := {o | ∀ r, o = some r → r ∈ env}

variable {fp : Option Reg} {s₀ : Supply} {env : Set Reg} {q : Reg → Reg} {c : Coloring}

theorem none_mem_from : none ∈ From env := fun _ h => by cases h

theorem some_mem_from {r : Reg} : some r ∈ From env ↔ r ∈ env :=
  ⟨fun h => h r rfl, fun h _ hw => Option.some.inj hw ▸ h⟩

theorem reg_mem_from (hc : ∀ r ∈ c.live.regs, r ∈ From env) (n : Nat) : c.live.reg n ∈ From env := by
  unfold Liveness.reg
  rw [Array.getD_eq_getD_getElem?]
  cases h : c.live.regs[n]? with
  | none => exact none_mem_from
  | some r => exact hc r (Array.mem_of_getElem? h)

namespace Hides

variable (h : Hides cat fp s₀ env q)
include h

theorem injOn_from : Set.InjOn (Option.map q) (From env) := by
  intro x hx y hy heq
  cases x with
  | none =>
    cases y with
    | none => rfl
    | some w => cases heq
  | some r =>
    cases y with
    | none => cases heq
    | some w => rw [h.injOn (hx r rfl) (hy w rfl) (Option.some.inj heq)]

theorem fp_mem : fp ∈ From env := fun r hr => (h.fp r hr).1

theorem map_fp : fp.map q = fp := by
  cases fp with
  | none => rfl
  | some r => rw [Option.map_some, (h.fp r rfl).2]

theorem map_eq_iff {x r : Option Reg} (hx : x ∈ From env) (hr : r ∈ cat.regs) :
    x.map q = r ↔ x = r := by
  cases x with
  | none => rfl
  | some w =>
    cases r with
    | none => simp
    | some v => simpa using h.regs w (hx w rfl) v hr

/-! ### Coloring a round -/

theorem precolorAll_mapRegs (hc : ∀ r ∈ c.live.regs, r ∈ From env) :
    precolorAll cat (c.mapRegs (Option.map q)) = (precolorAll cat c).mapRegs (Option.map q) ∧
      (precolorAll cat c).live = c.live := by
  have hmem : ∀ p ∈ cat.regs.zipIdx, p.1 ∈ cat.regs := fun p hp =>
    (mem_zipIdx hp).2.2 ▸ getElem_mem _
  unfold precolorAll
  revert hmem
  generalize cat.regs.zipIdx = list
  intro hmem
  induction list generalizing c with
  | nil => exact ⟨rfl, rfl⟩
  | cons p rest ih =>
    obtain ⟨hp, hrest⟩ := forall_mem_cons.mp hmem
    obtain ⟨r, color⟩ := p
    have hindex : (c.mapRegs (Option.map q)).live.index? r = c.live.index? r := by
      refine findIdx?_map_of_forall fun x hx => ?_
      rw [Bool.eq_iff_iff, beq_iff_eq, beq_iff_eq]
      exact h.map_eq_iff (hc x hx) hp
    rw [foldl_cons, foldl_cons]
    dsimp only
    rw [hindex]
    cases c.live.index? r with
    | none => exact ih hc hrest
    | some n => exact ih (c := c.precolor n color) hc hrest

theorem markTemporaries_mapRegs {temps : List (Option Reg)} (htemps : ∀ r ∈ temps, r ∈ From env)
    (hc : ∀ r ∈ c.live.regs, r ∈ From env) :
    markTemporaries (temps.map (Option.map q)) (c.mapRegs (Option.map q)) =
      (markTemporaries temps c).mapRegs (Option.map q) := by
  have hcontains : ∀ n, (temps.map (Option.map q)).contains
      ((c.mapRegs (Option.map q)).live.reg n) = temps.contains (c.live.reg n) := fun n => by
    rw [show (c.mapRegs (Option.map q)).live.reg n = (c.live.reg n).map q from
      Liveness.reg_mapRegs rfl n]
    exact contains_map_of_injOn h.injOn_from htemps (reg_mem_from hc n)
  unfold markTemporaries
  simp only [hcontains, Coloring.size_mapRegs]
  rfl

theorem alike_checkMachine (hc : ∀ r ∈ c.live.regs, r ∈ From env)
    (hst : Retold (Option.map q) base s t) (ns : List Nat) :
    Alike (checkMachine cat c ns) (checkMachine cat (c.mapRegs (Option.map q)) ns) s t
      (fun _ s' _ t' => s' = s ∧ t' = t) (BothFail (Option.map q) base) := by
  induction ns with
  | nil => exact alike_pure ⟨rfl, rfl⟩
  | cons n rest ih =>
    have hmem := reg_mem_from hc n
    unfold checkMachine
    rw [show (c.mapRegs (Option.map q)).isMachine n = c.isMachine n from rfl,
      show (c.mapRegs (Option.map q)).live.reg n = (c.live.reg n).map q from
        Liveness.reg_mapRegs rfl n]
    split
    · exact ih
    · cases hr : c.live.reg n with
      | none => exact alike_trap ⟨rfl, hst⟩
      | some r =>
        dsimp only [Option.map_some]
        rw [h.machine r (hmem r hr)]
        split
        · exact alike_fail ⟨rfl, hst⟩
        · exact ih

variable {k : Nat} {code : Code} {temps : List (Option Reg)}

theorem alike_color (hcode : ∀ r ∈ code.regs, r ∈ From env) (htemps : ∀ r ∈ temps, r ∈ From env)
    (hst : Retold (Option.map q) base s t) :
    Alike (color cat k fp temps code) (color cat k fp (temps.map (Option.map q))
      (code.map (Instr.mapRegs (Option.map q)))) s t
      (fun c s' c' t' => c' = c.mapRegs (Option.map q) ∧
        (∀ r, some r ∈ c.live.regs → some r ∈ code.regs) ∧ SameStore s s' ∧
        Retold (Option.map q) base s' t') (BothFail (Option.map q) base) := by
  unfold color
  rw [Flow.ofCode_mapRegs]
  cases hg : Flow.ofCode code with
  | error e => exact alike_fail ⟨rfl, hst⟩
  | ok g =>
    have hlive := Liveness.ofFlow_mapRegs h.injOn_from h.fp_mem hcode g
    rw [h.map_fp] at hlive
    have hnamed : ∀ r ∈ (Liveness.ofFlow g code fp).regs, r ∈ From {r | some r ∈ code.regs} := by
      rintro r hr w rfl
      obtain ⟨n, hn⟩ := Array.getElem?_of_mem hr
      exact (((Liveness.ofFlow_describes hg fp).named _).mp ⟨n, hn⟩).1
    have hregs : ∀ r ∈ (Liveness.ofFlow g code fp).regs, r ∈ From env :=
      fun r hr w hw => hcode r (hw ▸ hnamed r hr w hw) w hw
    obtain ⟨hpre, hkeep⟩ := h.precolorAll_mapRegs (c := .start (.ofFlow g code fp) k) hregs
    have hlive' : (precolorAll cat (.start (.ofFlow g code fp) k)).live = .ofFlow g code fp := hkeep
    rw [← hlive'] at hregs hnamed
    dsimp only
    rw [hlive, Coloring.start_mapRegs, hpre, Coloring.size_mapRegs]
    refine alike_bind ((h.alike_checkMachine hregs hst _).mono ?_ fun _ _ _ _ => id)
    rintro - _ - _ ⟨rfl, rfl⟩
    rw [h.markTemporaries_mapRegs htemps hregs, Coloring.run_mapRegs rfl]
    dsimp only
    refine alike_bind (alike_tell hst rfl fun s' t' hst' hsame => ?_)
    rw [Coloring.clash?_mapRegs rfl]
    cases Coloring.clash? _ with
    | some e => exact alike_fail ⟨rfl, hst'⟩
    | none =>
      refine alike_pure ⟨rfl, fun r hr => ?_, hsame, hst'⟩
      exact Coloring.mem_of_mem_regs_run (c := markTemporaries temps _) none_mem_from hnamed _ hr r rfl

/-! ### Reading off the result -/

theorem alike_regMap {regs : Set Reg} (hregs : regs ⊆ env) (hc : ∀ r ∈ c.live.regs, r ∈ From regs)
    (hst : Retold (Option.map q) base s t) (ns : List Nat) {m m' : RegMap} (hm : m.Renamed regs q m') :
    Alike (regMap cat c ns m) (regMap cat (c.mapRegs (Option.map q)) ns m') s t
      (fun m s' m' t' => m.Renamed regs q m' ∧ s' = s ∧ t' = t) (BothFail (Option.map q) base) := by
  induction ns generalizing m m' with
  | nil => exact alike_pure ⟨hm, rfl, rfl⟩
  | cons n rest ih =>
    have hmem := reg_mem_from hc n
    unfold regMap
    rw [show (c.mapRegs (Option.map q)).colorOf n = c.colorOf n from rfl,
      show (c.mapRegs (Option.map q)).live.reg n = (c.live.reg n).map q from
        Liveness.reg_mapRegs rfl n]
    cases c.colorOf n with
    | none => exact ih hm
    | some color =>
      cases hr : c.live.reg n with
      | none => exact alike_trap ⟨rfl, hst⟩
      | some r =>
        refine ih ⟨fun w hw => ?_, fun v hv => ?_⟩
        · rw [RegMap.get?_assign, RegMap.get?_assign, hm.get w hw]
          exact if_congr (h.numbers w (hregs hw) r (hregs (hmem r hr))) rfl rfl
        · rw [RegMap.get?_assign, if_neg (hv r (hmem r hr)).symm]
          exact hm.only v hv

/-! ### Spilling -/

theorem replaceReg_mapRegs {r : Option Reg} {t : Reg} {rs : List (Option Reg)} (hr : r ∈ From env)
    (hrs : ∀ x ∈ rs, x ∈ From env) (ht : q t = t) :
    replaceReg (r.map q) t (rs.map (Option.map q)) = (replaceReg r t rs).map (Option.map q) := by
  unfold replaceReg
  rw [map_map, map_map]
  refine map_congr_left fun x hx => ?_
  simp only [Function.comp_apply, h.injOn_from.eq_iff (hrs x hx) hr]
  split
  · rw [Option.map_some, ht]
  · rfl

theorem detach_mapRegs {r : Option Reg} {load store : Reg → Instr} (hr : r ∈ From env)
    (hload : ∀ s t, s₀.Made s t → (load t).mapRegs (Option.map q) = load t)
    (hstore : ∀ s t, s₀.Made s t → (store t).mapRegs (Option.map q) = store t)
    (hcode : ∀ r ∈ code.regs, r ∈ From env) {s : Supply} (hs : s₀.Grows s) :
    Code.detach (r.map q) load store (code.map (Instr.mapRegs (Option.map q))) s =
      ((Code.detach r load store code s).1.map (Instr.mapRegs (Option.map q)),
        (Code.detach r load store code s).2) := by
  induction code generalizing s with
  | nil => rfl
  | cons x rest ih =>
    obtain ⟨⟨hreads, hwrites⟩, hrest⟩ := Code.forall_mem_regs_cons.mp hcode
    have hr1 : (x.mapRegs (Option.map q)).reads.contains (r.map q) = x.reads.contains r :=
      contains_map_of_injOn h.injOn_from hreads hr
    have hw1 : (x.mapRegs (Option.map q)).writes.contains (r.map q) = x.writes.contains r :=
      contains_map_of_injOn h.injOn_from hwrites hr
    have hmade := s.made_freshReg.mono hs (.refl _)
    rw [map_cons]
    unfold Code.detach
    rw [hr1, hw1]
    split
    · dsimp only
      rw [ih hrest (hs.trans s.grows_freshReg)]
      have hx : (x.mapRegs (Option.map q)).replaceReg (r.map q) s.freshReg.1 =
          (x.replaceReg r s.freshReg.1).mapRegs (Option.map q) := by
        unfold Instr.replaceReg Instr.mapRegs
        dsimp only
        rw [h.replaceReg_mapRegs hr hreads (h.made _ _ hmade).2,
          h.replaceReg_mapRegs hr hwrites (h.made _ _ hmade).2]
      rw [hx]
      simp only [map_append, map_cons, map_nil, apply_ite (List.map _),
        hload _ _ hmade, hstore _ _ hmade]
    · dsimp only
      rw [ih hrest hs]
      rfl

variable {sc : SpillCode}

/-- Loads and stores of what the supply hands out are left alone. -/
theorem mapRegs_of_local (hsc : sc.Local) {s : Supply} {t : Reg} (ht : s₀.Made s t) {x : Instr}
    {off : Int64} (hx : x ∈ [sc.load fp off t, sc.store fp off t]) :
    x.mapRegs (Option.map q) = x := by
  have hregs : ∀ r, r ∈ x.reads ∨ r ∈ x.writes → r.map q = r := by
    intro r hr
    rcases hsc fp off t r (Code.mem_regs.mpr ⟨x, hx, hr⟩) with rfl | rfl
    · exact h.map_fp
    · rw [Option.map_some, (h.made _ _ ht).2]
  have hmap : ∀ rs : List (Option Reg), (∀ r ∈ rs, r.map q = r) → rs.map (Option.map q) = rs :=
    fun rs hrs => (map_congr_left hrs).trans (map_id' _)
  unfold Instr.mapRegs
  rw [hmap _ fun r hr => hregs r (Or.inl hr), hmap _ fun r hr => hregs r (Or.inr hr)]

theorem alike_spillAll (hsc : sc.Local) (hc : ∀ r ∈ c.live.regs, r ∈ From env) (ns : List Nat)
    (hcode : ∀ r ∈ code.regs, r ∈ From env) (hs : s₀.Grows s.supply)
    (hframe : ∀ f, s.frame = some f → f.fp = fp) (hst : Retold (Option.map q) base s t) :
    Alike (spillAll sc c.live ns code) (spillAll sc (c.mapRegs (Option.map q)).live ns
      (code.map (Instr.mapRegs (Option.map q)))) s t
      (fun code s' code' t' => code' = code.map (Instr.mapRegs (Option.map q)) ∧
        (∀ r ∈ code.regs, r ∈ From env) ∧ s₀.Grows s'.supply ∧
        (∀ f, s'.frame = some f → f.fp = fp) ∧ Retold (Option.map q) base s' t')
      (BothFail (Option.map q) base) := by
  induction ns generalizing code s t with
  | nil => exact alike_pure ⟨rfl, hcode, hs, hframe, hst⟩
  | cons n rest ih =>
    have hreg : (c.mapRegs (Option.map q)).live.reg n = (c.live.reg n).map q :=
      Liveness.reg_mapRegs rfl n
    have hmem := reg_mem_from hc n
    unfold spillAll
    refine alike_bind (alike_tell hst (by rw [hreg, map_toArray]; rfl)
      fun s1 t1 h1 hsame => ?_)
    refine alike_bind (alike_get ?_)
    rw [h1.frame, hsame.frame]
    cases hf : s.frame with
    | none => exact alike_trap ⟨rfl, h1⟩
    | some f =>
      dsimp only
      refine alike_bind (alike_step ?_)
      have hs1 : s₀.Grows s1.supply := hsame.supply ▸ hs
      dsimp only [Code.spill, Frame.allocSlot]
      rw [h1.supply, hreg, hframe f hf, h.detach_mapRegs hmem
        (fun s t ht => h.mapRegs_of_local hsc ht mem_cons_self)
        (fun s t ht => h.mapRegs_of_local hsc ht (mem_cons_of_mem _ mem_cons_self)) hcode hs1]
      refine ih (fun r hr => ?_) (hs1.trans (Code.grows_detach _ _ _ _ _)) ?_ ⟨rfl, rfl, h1.log⟩
      · rcases Code.mem_regs_detach hr with h2 | ⟨t, h2, h3⟩
        · exact hcode r h2
        · have hmade := h.made _ _ (h2.mono hs1 (.refl _))
          rcases h3 with rfl | h3
          · exact some_mem_from.mpr hmade.1
          · rcases hsc _ _ _ _ h3 with rfl | rfl
            · exact h.fp_mem
            · exact some_mem_from.mpr hmade.1
      · rintro _ hf'
        cases hf'
        rfl

theorem newRegs_mapRegs (hc : ∀ r ∈ c.live.regs, r ∈ From env)
    (hcode : ∀ r ∈ code.regs, r ∈ From env) :
    newRegs (c.mapRegs (Option.map q)).live fp (code.map (Instr.mapRegs (Option.map q))) =
      (newRegs c.live fp code).map (Option.map q) := by
  unfold newRegs
  rw [Code.regs_mapRegs, filter_map]
  refine congrArg _ (filter_congr fun r hr => ?_)
  have hne : r.map q ≠ fp ↔ r ≠ fp := by
    rw [← h.injOn_from.ne_iff (hcode r hr) h.fp_mem, h.map_fp]
  have hcontains : (c.mapRegs (Option.map q)).live.regs.contains (r.map q) =
      c.live.regs.contains r := by
    rw [← Array.contains_toList, ← Array.contains_toList,
      show (c.mapRegs (Option.map q)).live.regs.toList = c.live.regs.toList.map (Option.map q) from
        Array.toList_map]
    exact contains_map_of_injOn h.injOn_from (fun x hx => hc x (Array.mem_def.mpr hx)) (hcode r hr)
  simp only [Function.comp_apply, hcontains, hne]

/-! ### All rounds -/

variable {x : Round} {total : Nat}

theorem alike_attempt (n : Nat) (hcode : ∀ r ∈ x.code.regs, r ∈ From env)
    (htemps : ∀ r ∈ x.temps, r ∈ From env) (hst : Retold (Option.map q) base s t) :
    Alike (attempt cat k fp n x) (attempt cat k fp n (x.mapRegs (Option.map q))) s t
      (fun p s' p' t' => p' = (p.1.mapRegs (Option.map q), p.2) ∧
        (∀ r, some r ∈ p.1.live.regs → some r ∈ x.code.regs) ∧ SameStore s s' ∧
        Retold (Option.map q) base s' t') (BothFail (Option.map q) base) := by
  unfold attempt
  refine alike_bind ((h.alike_color hcode htemps hst).mono ?_ fun _ _ _ _ => id)
  rintro c s1 _ t1 ⟨rfl, hnamed, hsame, hst1⟩
  refine alike_bind (alike_tell hst1 (by rw [Coloring.size_mapRegs, map_toArray]; rfl)
    fun s2 t2 hst2 hsame2 => ?_)
  rw [show (c.mapRegs (Option.map q)).nodes = c.nodes from rfl,
    show (c.mapRegs (Option.map q)).temporaries = c.temporaries from rfl]
  cases c.nodes.list .spilled with
  | nil => exact alike_pure ⟨rfl, hnamed, hsame.trans hsame2, hst2⟩
  | cons first rest =>
    dsimp only
    cases (first :: rest).filter (fun n => !c.temporaries.contains n) with
    | nil =>
      have hreg : (c.mapRegs (Option.map q)).live.reg first = (c.live.reg first).map q :=
        Liveness.reg_mapRegs rfl first
      exact alike_fail ⟨by rw [hreg]; rfl, hst2⟩
    | cons n ns => exact alike_pure ⟨rfl, hnamed, hsame.trans hsame2, hst2⟩

theorem after_mapRegs {chosen : List Nat} (hc : ∀ r ∈ c.live.regs, r ∈ From env)
    (hcode : ∀ r ∈ code.regs, r ∈ From env) :
    (x.mapRegs (Option.map q)).after fp (c.mapRegs (Option.map q)).live chosen
        (code.map (Instr.mapRegs (Option.map q))) =
      (x.after fp c.live chosen code).mapRegs (Option.map q) := by
  have hspill : chosen.map (c.mapRegs (Option.map q)).live.reg =
      (chosen.map c.live.reg).map (Option.map q) := by
    rw [map_map]
    exact map_congr_left fun n _ => Liveness.reg_mapRegs rfl n
  unfold Round.after Round.mapRegs
  rw [h.newRegs_mapRegs hc hcode, hspill, ← map_append, ← map_append]

theorem alike_rounds (hsc : sc.Local) (left : Nat) (hcode : ∀ r ∈ x.code.regs, r ∈ From env)
    (htemps : ∀ r ∈ x.temps, r ∈ From env) (hs : s₀.Grows s.supply)
    (hframe : ∀ f, s.frame = some f → f.fp = fp) (hst : Retold (Option.map q) base s t) :
    Alike (rounds cat sc k fp total left x)
      (rounds cat sc k fp total left (x.mapRegs (Option.map q))) s t
      (fun res s' res' t' => res.Renamed q res' ∧ (∀ r ∈ res.code.regs, r ∈ From env) ∧
        Retold (Option.map q) base s' t') (BothFail (Option.map q) base) := by
  induction left generalizing x s t with
  | zero => exact alike_fail ⟨rfl, hst⟩
  | succ left ih =>
    unfold rounds
    refine alike_bind ((h.alike_attempt _ hcode htemps hst).mono ?_ fun _ _ _ _ => id)
    rintro ⟨c, chosen⟩ s1 _ t1 ⟨rfl, hnamed, hsame, hst1⟩
    have hc : ∀ r ∈ c.live.regs, r ∈ From env :=
      fun r hr w hw => hcode r (hw ▸ hnamed w (hw ▸ hr)) w hw
    dsimp only
    split
    · rw [Coloring.size_mapRegs]
      have hregs : {r | some r ∈ x.code.regs} ⊆ env := fun r hr => hcode _ hr r rfl
      refine alike_bind ((h.alike_regMap hregs (fun r hr w hw => hnamed w (hw ▸ hr)) hst1 _
        ⟨fun _ _ => rfl, fun _ _ => rfl⟩).mono ?_ fun _ _ _ _ => id)
      rintro m _ m' _ ⟨hm, rfl, rfl⟩
      exact alike_pure ⟨⟨rfl, rfl, rfl, Coloring.groups_mapRegs rfl c, hm⟩, hcode, hst1⟩
    · refine alike_bind ((h.alike_spillAll hsc hc _ hcode (hsame.supply ▸ hs)
        (hsame.frame ▸ hframe) hst1).mono ?_ fun _ _ _ _ => id)
      rintro code' s2 _ t2 ⟨rfl, hcode', hs', hframe', hst2⟩
      rw [h.after_mapRegs hc hcode']
      have hnew : ∀ r ∈ newRegs c.live fp code', r ∈ From env :=
        fun r hr => hcode' r (mem_newRegs.mp hr).1
      exact ih hcode' (forall_mem_append.mpr ⟨htemps, hnew⟩) hs' hframe' hst2

end Hides

theorem Hides.alike_allocate (h : Hides cat (s.frame.bind (·.fp)) s.supply env q) (d : Dialect)
    (cfg : Config) {code : Code} (hcode : ∀ r ∈ code.regs, r ∈ From env) :
    Alike (allocate cat d.spillCode cfg code)
      (allocate cat d.spillCode cfg (code.map (Instr.mapRegs (Option.map q)))) s s
      (fun res s' res' t' => res.Renamed q res' ∧ (∀ r ∈ res.code.regs, r ∈ From env) ∧
        Retold (Option.map q) s.log s' t') (BothFail (Option.map q) s.log) := by
  have hstart : Retold (Option.map q) s.log s s := ⟨rfl, rfl, #[], by simp, by simp⟩
  unfold allocate
  refine alike_bind (alike_get ?_)
  dsimp only
  split
  · exact alike_fail ⟨rfl, hstart⟩
  · exact h.alike_rounds d.spillCode_local _ hcode (by simp) (.refl _)
      (fun f hf => by rw [hf]; rfl) hstart

/-- Every register of an allocated code other than the frame pointer is sent to a machine register. -/
theorem exists_machine_of_allocate {sc : SpillCode} {cfg : Config} {code : Code} {st st' : State}
    {res : Result} (hnd : cat.regs.Nodup) (hsome : none ∉ cat.regs) (henv : st.supply.Owns env)
    (hcode : ∀ r, some r ∈ code.regs → r ∈ env)
    (hfp : ∀ r, st.frame.bind (·.fp) = some r → r ∈ env) (hsc : sc.Within env)
    (hres : allocate cat sc cfg code st = .ok res st') {r : Option Reg} (hr : r ∈ res.code.regs)
    (hne : r ≠ st.frame.bind (·.fp)) : ∃ v w, r = some v ∧ res.map.get? v = some w := by
  obtain ⟨n, x, s, g, c, hstart, hg, -, hadm, hc, hnil, rfl⟩ := allocate_eq_ok hnd rfl rfl hres
  have hdrawn := hstart.drawn hnd hsc hfp (fun f hf => by rw [hf]; rfl) hcode
  obtain ⟨v, w, h1, h2, -⟩ := exists_machine_of_mem hnd hsome (colorCount_le cfg cat.regs.length) hg
    (hdrawn.numbered henv hfp) hadm hc rfl hnil hr hne
  exact ⟨v, w, h1, h2⟩

/-! ### Renamings -/

/-- A renaming of registers from one supply: no two get one name or number, none that the supply is
still to hand out, machine registers and the frame pointer stay as they are and the others remain
virtual. -/
structure Renames (cat : Catalog) (fp : Option Reg) (s : Supply) (env : Set Reg) (p : Reg → Reg) :
    Prop where
  owns : s.Owns env
  image : s.Owns (p '' env)
  injOn : Set.InjOn p env
  fp : ∀ r, fp = some r → r ∈ env ∧ p r = r
  machine : ∀ r ∈ env, cat.isMachine r = true ∨ some r ∈ cat.regs → p r = r
  virtual : ∀ r ∈ env, cat.isMachine r = false → some r ∉ cat.regs →
    cat.isMachine (p r) = false ∧ some (p r) ∉ cat.regs

theorem Renames.hides {p : Reg → Reg} {s : Supply} (h : Renames cat fp s env p) :
    Hides cat fp s (env ∪ {r | ∃ s', s.Made s' r}) (s.renameOld p) := by
  have hold : ∀ r ∈ env, s.renameOld p r = p r := fun r hr => if_pos (h.owns.old r hr)
  have hnew : ∀ r s', s.Made s' r → s.renameOld p r = r :=
    fun r s' hr => if_neg (Nat.not_lt.mpr hr.le)
  have himage : ∀ r ∈ env ∪ {r | ∃ s', s.Made s' r},
      s.renameOld p r ∈ p '' env ∪ {r | ∃ s', s.Made s' r} := by
    rintro r (hr | ⟨s', hr⟩)
    · exact Or.inl ⟨r, hr, (hold r hr).symm⟩
    · exact Or.inr ⟨s', (hnew r s' hr).symm ▸ hr⟩
  have hne : ∀ r ∈ env, ∀ w s', s.Made s' w → p r ≠ w := by
    rintro r hr _ s' hw rfl
    have := h.image.old _ ⟨r, hr, rfl⟩
    have := hw.le
    omega
  have hinj : Set.InjOn (s.renameOld p) (env ∪ {r | ∃ s', s.Made s' r}) := by
    rintro r (hr | ⟨s', hr⟩) w (hw | ⟨s'', hw⟩) heq
    · rw [hold r hr, hold w hw] at heq
      exact h.injOn hr hw heq
    · rw [hold r hr, hnew w s'' hw] at heq
      exact absurd heq (hne r hr w s'' hw)
    · rw [hnew r s' hr, hold w hw] at heq
      exact absurd heq.symm (hne w hw r s' hr)
    · rwa [hnew r s' hr, hnew w s'' hw] at heq
  refine ⟨hinj, fun r hr w hw => ⟨fun hid => ?_, fun hid => ?_⟩, fun r hr => ?_, ?_, ?_,
    fun s' r hr => ⟨Or.inr ⟨s', hr⟩, hnew r s' hr⟩⟩
  · rw [hinj hr hw (h.image.eq_of_id (himage r hr) (himage w hw) hid)]
  · rw [h.owns.eq_of_id hr hw hid]
  · obtain ⟨h1, h2⟩ := h.fp r hr
    exact ⟨Or.inl h1, (hold r h1).trans h2⟩
  · rintro r (hr | ⟨s', hr⟩) v hv
    · rw [hold r hr]
      constructor
      · rintro rfl
        have hm : cat.isMachine r = true ∨ some r ∈ cat.regs := by
          by_contra hvirt
          rw [not_or, Bool.not_eq_true] at hvirt
          exact (h.virtual r hr hvirt.1 hvirt.2).2 hv
        exact (h.machine r hr hm).symm
      · rintro rfl
        exact h.machine r hr (Or.inr hv)
    · rw [hnew r s' hr]
  · rintro r (hr | ⟨s', hr⟩)
    · rw [hold r hr]
      by_cases hm : cat.isMachine r = true ∨ some r ∈ cat.regs
      · rw [h.machine r hr hm]
      · rw [not_or, Bool.not_eq_true] at hm
        rw [(h.virtual r hr hm.1 hm.2).1, hm.1]
    · rw [hnew r s' hr]

/-- Allocation does not depend on what registers are called or how they are numbered. On code with
its registers renamed it takes the same number of rounds and tells the same about the renamed
registers. It fails in the same way, or its result is renamed as well, where registers made for
spills keep their names; and the listing is the same text, if the catalog names its registers and
each once. -/
theorem allocate_renamed {cat : Catalog} {d : Dialect} {cfg : Config} {code : Code} {st : State}
    {p : Reg → Reg}
    (hp : Renames cat (st.frame.bind (·.fp)) st.supply
      {r | some r ∈ st.frame.bind (·.fp) :: code.regs} p) :
    ∃ q : Reg → Reg, (∀ r, some r ∈ st.frame.bind (·.fp) :: code.regs → q r = p r) ∧
      (∀ s r, st.supply.Made s r → q r = r) ∧
      Alike (allocate cat d.spillCode cfg code)
        (allocate cat d.spillCode cfg (code.map (Instr.mapRegs (Option.map p)))) st st
        (fun res s res' s' => res.Renamed q res' ∧ Set.InjOn q {r | some r ∈ res.code.regs} ∧
          Retold (Option.map q) st.log s s' ∧ (cat.regs.Nodup → none ∉ cat.regs →
            Code.render res'.map res'.code = Code.render res.map res.code))
        (fun e s e' s' => e'.kind? = e.kind? ∧ e' = e.mapRegs (Option.map q) ∧
          Retold (Option.map q) st.log s s') := by
  have h := hp.hides
  have hold : ∀ r, some r ∈ st.frame.bind (·.fp) :: code.regs → st.supply.renameOld p r = p r :=
    fun r hr => if_pos (hp.owns.old r hr)
  have hcode : code.map (Instr.mapRegs (Option.map p)) =
      code.map (Instr.mapRegs (Option.map (st.supply.renameOld p))) := by
    refine Code.mapRegs_congr fun r hr => ?_
    cases r with
    | none => rfl
    | some r => exact congrArg some (hold r (mem_cons_of_mem _ hr)).symm
  refine ⟨st.supply.renameOld p, hold, fun s r hr => (h.made s r hr).2, ?_⟩
  rw [hcode]
  have hrun := h.alike_allocate d cfg fun r (hr : r ∈ code.regs) w hw =>
    Or.inl (mem_cons_of_mem _ (hw ▸ hr))
  refine hrun.and_returns.mono ?_ ?_
  · rintro res s res' s' ⟨⟨hren, hregs, hst⟩, hres, -⟩
    refine ⟨hren, h.injOn.mono fun r hr => hregs _ hr r rfl, hst, fun hnd hsome => ?_⟩
    rw [hren.code]
    refine Code.render_mapRegs fun r hr => ?_
    unfold RegMap.resolve
    rw [hren.map.get r hr]
    by_cases hfp : some r = st.frame.bind (·.fp)
    · rw [(h.fp r hfp.symm).2]
    · -- what it is called does not matter where it has a machine register
      obtain ⟨v, w, hv, hw⟩ := exists_machine_of_allocate hnd hsome hp.owns
        (fun r hr => mem_cons_of_mem _ hr) (fun r hr => hr ▸ mem_cons_self)
        (d.spillCode_local.within _) hres hr hfp
      cases hv
      rw [hw]
      rfl
  · rintro e s _ s' ⟨rfl, hst⟩
    exact ⟨Failure.kind?_mapRegs _ e, rfl, hst⟩

/-- Exchange the two virtual registers of counting up. -/
def countUpNames (r : Reg) : Reg :=
  if r = ⟨0, 2, ""⟩ then ⟨0, 3, ""⟩ else if r = ⟨0, 3, ""⟩ then ⟨0, 2, ""⟩ else r

theorem renames_countUpNames : Renames tinyMachine (tinyState.frame.bind (·.fp)) tinyState.supply
    {r | some r ∈ tinyState.frame.bind (·.fp) :: countUp.regs} countUpNames := by
  have hmem : ∀ o ∈ tinyState.frame.bind (·.fp) :: countUp.regs, ∀ r ∈ o,
      r ∈ [(⟨0, 1, "fp"⟩ : Reg), ⟨0, 2, ""⟩, ⟨0, 3, ""⟩] := by decide
  have hregs : {r | some r ∈ tinyState.frame.bind (·.fp) :: countUp.regs} ⊆
      {r | r ∈ [(⟨0, 1, "fp"⟩ : Reg), ⟨0, 2, ""⟩, ⟨0, 3, ""⟩]} := fun r hr => hmem _ hr r rfl
  have hold : ∀ r ∈ [(⟨0, 1, "fp"⟩ : Reg), ⟨0, 2, ""⟩, ⟨0, 3, ""⟩],
      r.id < tinyState.supply.regs ∧ (countUpNames r).id < tinyState.supply.regs ∧
      (tinyMachine.isMachine r = true ∨ some r ∈ tinyMachine.regs → countUpNames r = r) ∧
      (tinyMachine.isMachine r = false → some r ∉ tinyMachine.regs →
        tinyMachine.isMachine (countUpNames r) = false ∧ some (countUpNames r) ∉ tinyMachine.regs) := by
    decide
  have hinj : ∀ r ∈ [(⟨0, 1, "fp"⟩ : Reg), ⟨0, 2, ""⟩, ⟨0, 3, ""⟩],
      ∀ w ∈ [(⟨0, 1, "fp"⟩ : Reg), ⟨0, 2, ""⟩, ⟨0, 3, ""⟩], (r.id = w.id → r = w) ∧
        ((countUpNames r).id = (countUpNames w).id → r = w) := by decide
  refine ⟨⟨fun r hr => (hold r (hregs hr)).1,
    fun r hr w hw => (hinj r (hregs hr) w (hregs hw)).1⟩, ⟨?_, ?_⟩, fun r hr w hw heq =>
    (hinj r (hregs hr) w (hregs hw)).2 (congrArg Reg.id heq), ?_, fun r hr => (hold r (hregs hr)).2.2.1,
    fun r hr => (hold r (hregs hr)).2.2.2⟩
  · rintro _ ⟨r, hr, rfl⟩
    exact (hold r (hregs hr)).2.1
  · rintro _ ⟨r, hr, rfl⟩ _ ⟨w, hw, rfl⟩ hid
    rw [(hinj r (hregs hr) w (hregs hw)).2 hid]
  · rintro r hr
    cases hr
    exact ⟨mem_cons_self, rfl⟩

/-- With its two registers exchanged, counting up is allocated in three rounds as before, and printed
as before. -/
theorem countUp_renamed : ∃ res s res' s',
    allocate tinyMachine Target.Amd64.dialect.spillCode {} countUp tinyState = .ok res s ∧
      allocate tinyMachine Target.Amd64.dialect.spillCode {}
        (countUp.map (Instr.mapRegs (Option.map countUpNames))) tinyState = .ok res' s' ∧
      res'.rounds = 3 ∧ Code.render res'.map res'.code = Code.render res.map res.code := by
  have hrun : Ends (allocate tinyMachine Target.Amd64.dialect.spillCode {} countUp) tinyState
      (fun res _ => res.rounds = 3) fun _ => False := by decide +kernel
  obtain ⟨res, s, hres, hrounds⟩ := hrun.returns
  obtain ⟨q, -, -, halike⟩ := allocate_renamed renames_countUpNames
  obtain ⟨res', s', hres', hren, -, -, hprint⟩ := halike.of_ok hres
  exact ⟨res, s, res', s', hres, hres', hren.rounds.trans hrounds,
    hprint (by decide) (by decide)⟩

end Allocation

end Codegen
