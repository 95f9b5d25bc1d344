import Codegen.Proofs.Spill
import Mathlib.Data.List.Nodup

/-!
# Patched instructions

However many registers are spilled one after the other, the code stays a list of the first
instructions, each with loads before it and stores behind it for the registers that stand in for
spilled ones. `Layout` says which code that is, and `Layout.spillEach` that spilling keeps it.
-/

namespace Codegen

open List

variable {bs : List Patch}

/-- Whether the instruction reads or writes a register. -/
def Instr.mentions (x : Instr) (r : Option Reg) : Bool := x.reads.contains r || x.writes.contains r

theorem Instr.mentions_iff {x : Instr} {r : Option Reg} :
    x.mentions r = true ↔ r ∈ x.reads ∨ r ∈ x.writes := by
  simp [mentions]

/-! ### Detaching from parts of code -/

namespace Code

variable {r : Option Reg} {load store : Reg → Instr}

theorem detach_append (first rest : Code) (s : Supply) :
    detach r load store (first ++ rest) s =
      ((detach r load store first s).1 ++
          (detach r load store rest (detach r load store first s).2).1,
        (detach r load store rest (detach r load store first s).2).2) := by
  induction first generalizing s with
  | nil => rfl
  | cons x first ih =>
    rw [cons_append, detach, detach]
    split
    · simp only [ih, append_assoc]
    · simp only [ih, cons_append]

theorem detach_of_not_mem {code : Code} (h : r ∉ code.regs) (s : Supply) :
    detach r load store code s = (code, s) := by
  induction code with
  | nil => rfl
  | cons x rest ih =>
    rw [regs, flatMap_cons, mem_append, not_or] at h
    have hx : ¬ x.mentions r = true := by
      rw [Instr.mentions_iff, ← mem_append]
      exact h.1
    unfold detach
    rw [if_neg (show ¬ (x.reads.contains r || x.writes.contains r) = true from hx), ih h.2]

theorem regs_append (first rest : Code) : regs (first ++ rest) = first.regs ++ rest.regs := by
  simp [regs]

end Code

/-! ### Patches -/

/-- A fresh register that stands in for a spilled one, which lives in a slot of the frame. -/
structure StandIn where
  reg : Option Reg
  off : Int64
  temp : Reg
deriving DecidableEq, Repr

/-- The spilled register and the offset of its slot. -/
def StandIn.slot (a : StandIn) : Option Reg × Int64 := (a.reg, a.off)

/-- An instruction with the registers that stand in for those that it refers to. -/
structure Patch where
  instr : Instr
  standIns : List StandIn := []
deriving DecidableEq, Repr

namespace Patch

/-- The register that stands for a register of the instruction. -/
def rename (b : Patch) (r : Option Reg) : Option Reg :=
  match b.standIns.find? (·.reg = r) with
  | some a => some a.temp
  | none => r

/-- The instruction with other registers standing in. -/
def body (b : Patch) : Instr :=
  { b.instr with reads := b.instr.reads.map b.rename, writes := b.instr.writes.map b.rename }

variable (d : Dialect) (fp : Option Reg)

/-- The loads before the instruction. -/
def loads (b : Patch) : Code :=
  (b.standIns.filter fun a => b.instr.reads.contains a.reg).map fun a => d.loadSlot fp a.off a.temp

/-- The stores behind the instruction. -/
def stores (b : Patch) : Code :=
  (b.standIns.reverse.filter fun a => b.instr.writes.contains a.reg).map fun a =>
    d.storeAt fp a.off (some a.temp)

/-- The code of a patched instruction. -/
def code (b : Patch) : Code := b.loads d fp ++ b.body :: b.stores d fp

/-- The patch with one more register standing in. -/
def add (b : Patch) (a : StandIn) : Patch := { b with standIns := b.standIns ++ [a] }

/-- Let a fresh register stand in for `r` at each instruction that refers to it. -/
def detachAll (r : Option Reg) (off : Int64) : List Patch → Supply → List Patch × Supply
  | [], s => ([], s)
  | b :: rest, s =>
    if b.instr.mentions r then
      let (t, s) := s.freshReg
      let (rest, s) := detachAll r off rest s
      (b.add ⟨r, off, t⟩ :: rest, s)
    else
      let (rest, s) := detachAll r off rest s
      (b :: rest, s)

/-- The code of patched instructions. -/
def codeAll (bs : List Patch) : Code := bs.flatMap (code d fp)

variable {d fp} {b : Patch} {r : Option Reg}

theorem rename_of_not_mem (h : r ∉ b.standIns.map StandIn.reg) : b.rename r = r := by
  have hfind : b.standIns.find? (·.reg = r) = none := by
    rw [find?_eq_none]
    intro a ha hr
    exact h (mem_map.mpr ⟨a, ha, by simpa using hr⟩)
  rw [rename, hfind]

theorem rename_of_mem (hnd : (b.standIns.map StandIn.reg).Nodup) {a : StandIn}
    (ha : a ∈ b.standIns) : b.rename a.reg = some a.temp := by
  cases hfind : b.standIns.find? (·.reg = a.reg) with
  | none => simpa using find?_eq_none.mp hfind a ha
  | some a' =>
    have hreg : a'.reg = a.reg := by simpa using find?_some hfind
    have heq := inj_on_of_nodup_map hnd (mem_of_find?_eq_some hfind) ha hreg
    subst heq
    rw [rename, hfind]

theorem rename_eq_or (b : Patch) (r : Option Reg) : b.rename r = r ∧ r ∉ b.standIns.map StandIn.reg ∨
    ∃ a ∈ b.standIns, a.reg = r ∧ b.rename r = some a.temp := by
  cases hfind : b.standIns.find? (·.reg = r) with
  | none =>
    refine Or.inl ⟨by rw [rename, hfind], fun hr => ?_⟩
    obtain ⟨a, ha, rfl⟩ := mem_map.mp hr
    simpa using find?_eq_none.mp hfind a ha
  | some a =>
    exact Or.inr ⟨a, mem_of_find?_eq_some hfind, by simpa using find?_some hfind,
      by rw [rename, hfind]⟩

theorem mem_loads {x : Instr} : x ∈ b.loads d fp ↔
    ∃ a ∈ b.standIns, a.reg ∈ b.instr.reads ∧ x = d.loadSlot fp a.off a.temp := by
  simp only [loads, mem_map, mem_filter, contains_iff_mem, and_assoc]
  exact exists_congr fun a => and_congr_right' (and_congr_right' eq_comm)

theorem mem_stores {x : Instr} : x ∈ b.stores d fp ↔
    ∃ a ∈ b.standIns, a.reg ∈ b.instr.writes ∧ x = d.storeAt fp a.off (some a.temp) := by
  simp only [stores, mem_map, mem_filter, contains_iff_mem, and_assoc,
    mem_reverse]
  exact exists_congr fun a => and_congr_right' (and_congr_right' eq_comm)

theorem mem_regs_code {y : Option Reg} (h : y ∈ (b.code d fp).regs) :
    y = fp ∨ (∃ a ∈ b.standIns, y = some a.temp) ∨
      b.instr.mentions y = true ∧ y ∉ b.standIns.map StandIn.reg := by
  obtain ⟨x, hx, hy⟩ := Code.mem_regs.mp h
  rcases mem_append.mp hx with hx | hx
  · obtain ⟨a, ha, -, rfl⟩ := mem_loads.mp hx
    rcases hy with hy | hy
    · exact Or.inl (mem_singleton.mp hy)
    · exact Or.inr (Or.inl ⟨a, ha, mem_singleton.mp hy⟩)
  · rcases mem_cons.mp hx with rfl | hx
    · have hy' : ∃ r, b.instr.mentions r = true ∧ b.rename r = y := by
        simp only [Instr.mentions_iff]
        rcases hy with hy | hy
        · obtain ⟨r, hr, rfl⟩ := mem_map.mp hy
          exact ⟨r, Or.inl hr, rfl⟩
        · obtain ⟨r, hr, rfl⟩ := mem_map.mp hy
          exact ⟨r, Or.inr hr, rfl⟩
      obtain ⟨r, hr, rfl⟩ := hy'
      rcases b.rename_eq_or r with ⟨h1, h2⟩ | ⟨a, ha, -, h1⟩
      · rw [h1]
        exact Or.inr (Or.inr ⟨hr, h2⟩)
      · exact Or.inr (Or.inl ⟨a, ha, h1⟩)
    · obtain ⟨a, ha, -, rfl⟩ := mem_stores.mp hx
      rcases hy with hy | hy
      · rcases mem_cons.mp hy with hy | hy
        · exact Or.inr (Or.inl ⟨a, ha, hy⟩)
        · exact Or.inl (mem_singleton.mp hy)
      · cases hy

/-- One more register standing in is loaded last and stored first. -/
theorem code_add (b : Patch) (a : StandIn) : (b.add a).code d fp =
    b.loads d fp ++ ((if b.instr.reads.contains a.reg then [d.loadSlot fp a.off a.temp] else []) ++
      (b.add a).body :: ((if b.instr.writes.contains a.reg then [d.storeAt fp a.off (some a.temp)]
        else []) ++ b.stores d fp)) := by
  unfold code loads stores
  by_cases h1 : a.reg ∈ b.instr.reads <;> by_cases h2 : a.reg ∈ b.instr.writes <;>
    simp [add, h1, h2]

/-! ### Spilling from patched code -/

section Detach

variable (hr : r ∉ b.standIns.map StandIn.reg) (ht : ∀ a ∈ b.standIns, r ≠ some a.temp)
include hr ht

theorem rename_eq_iff {x : Option Reg} : b.rename x = r ↔ x = r := by
  constructor
  · intro h
    rcases b.rename_eq_or x with ⟨h1, -⟩ | ⟨a, ha, -, h1⟩
    · exact h1.symm.trans h
    · exact absurd (h.symm.trans h1) (ht a ha)
  · rintro rfl
    exact rename_of_not_mem hr

theorem rename_add (off : Int64) (t : Reg) (x : Option Reg) :
    (b.add ⟨r, off, t⟩).rename x = if b.rename x = r then some t else b.rename x := by
  simp only [rename_eq_iff hr ht]
  by_cases hx : x = r
  · subst hx
    have hfind : b.standIns.find? (·.reg = x) = none := by
      rw [find?_eq_none]
      intro a ha hax
      exact hr (mem_map.mpr ⟨a, ha, by simpa using hax⟩)
    simp [rename, add, find?_append, hfind]
  · have hrx : ¬ r = x := fun h => hx h.symm
    rw [if_neg hx]
    simp [rename, add, find?_append, hrx]

theorem body_add (off : Int64) (t : Reg) : (b.add ⟨r, off, t⟩).body = b.body.replaceReg r t := by
  have hmap : ∀ list : List (Option Reg), list.map (b.add ⟨r, off, t⟩).rename =
      replaceReg r t (list.map b.rename) := by
    intro list
    rw [replaceReg, map_map]
    exact map_congr_left fun x _ => rename_add hr ht off t x
  show { b.instr with
    reads := b.instr.reads.map (b.add ⟨r, off, t⟩).rename
    writes := b.instr.writes.map (b.add ⟨r, off, t⟩).rename } = _
  rw [hmap, hmap]
  rfl

theorem mem_map_rename {list : List (Option Reg)} : r ∈ list.map b.rename ↔ r ∈ list := by
  rw [mem_map]
  constructor
  · rintro ⟨x, hx, h⟩
    rwa [(rename_eq_iff hr ht).mp h] at hx
  · exact fun h => ⟨r, h, rename_of_not_mem hr⟩

theorem detach_code (hfp : r ≠ fp) (off : Int64) (s : Supply) :
    Code.detach r (d.loadSlot fp off) (fun t => d.storeAt fp off (some t)) (b.code d fp) s =
      if b.instr.mentions r then ((b.add ⟨r, off, s.freshReg.1⟩).code d fp, s.freshReg.2)
      else (b.code d fp, s) := by
  have hloads : r ∉ (b.loads d fp).regs := by
    intro h
    obtain ⟨x, hx, hy⟩ := Code.mem_regs.mp h
    obtain ⟨a, ha, -, rfl⟩ := mem_loads.mp hx
    rcases hy with hy | hy
    · exact hfp (mem_singleton.mp hy)
    · exact ht a ha (mem_singleton.mp hy)
  have hstores : r ∉ (b.stores d fp).regs := by
    intro h
    obtain ⟨x, hx, hy⟩ := Code.mem_regs.mp h
    obtain ⟨a, ha, -, rfl⟩ := mem_stores.mp hx
    rcases hy with hy | hy
    · rcases mem_cons.mp hy with hy | hy
      · exact ht a ha hy
      · exact hfp (mem_singleton.mp hy)
    · cases hy
  have hreads : b.body.reads.contains r = b.instr.reads.contains r := by
    rw [Bool.eq_iff_iff, contains_iff_mem, contains_iff_mem]
    exact mem_map_rename hr ht
  have hwrites : b.body.writes.contains r = b.instr.writes.contains r := by
    rw [Bool.eq_iff_iff, contains_iff_mem, contains_iff_mem]
    exact mem_map_rename hr ht
  rw [code, Code.detach_append, Code.detach_of_not_mem hloads, Code.detach, hreads, hwrites]
  unfold Instr.mentions
  split
  · rename_i hm
    simp only [Code.detach_of_not_mem hstores, ← body_add hr ht off, code_add, append_assoc,
      cons_append, nil_append]
  · simp only [Code.detach_of_not_mem hstores]

end Detach

theorem detach_codeAll (hr : ∀ b ∈ bs, r ∉ b.standIns.map StandIn.reg)
    (ht : ∀ b ∈ bs, ∀ a ∈ b.standIns, r ≠ some a.temp) (hfp : r ≠ fp) (off : Int64) (s : Supply) :
    Code.detach r (d.loadSlot fp off) (fun t => d.storeAt fp off (some t)) (codeAll d fp bs) s =
      (codeAll d fp (detachAll r off bs s).1, (detachAll r off bs s).2) := by
  induction bs generalizing s with
  | nil => rfl
  | cons b rest ih =>
    have ih' := ih (fun b hb => hr b (mem_cons_of_mem _ hb))
      fun b hb => ht b (mem_cons_of_mem _ hb)
    unfold codeAll at ih' ⊢
    rw [flatMap_cons, Code.detach_append,
      detach_code (hr b mem_cons_self) (ht b mem_cons_self) hfp, detachAll]
    split
    · simp only [ih', flatMap_cons]
    · simp only [ih', flatMap_cons]

theorem grows_detachAll (r : Option Reg) (off : Int64) (bs : List Patch) (s : Supply) :
    s.Grows (detachAll r off bs s).2 := by
  induction bs generalizing s with
  | nil => exact Supply.Grows.refl s
  | cons b rest ih =>
    rw [detachAll]
    split
    · exact s.grows_freshReg.trans (ih _)
    · exact ih s

/-- What becomes of each patch: it is as before, or one more register stands in. -/
theorem mem_detachAll {off : Int64} {s : Supply} {b' : Patch}
    (h : b' ∈ (detachAll r off bs s).1) : ∃ b ∈ bs,
      b' = b ∧ b.instr.mentions r = false ∨
      ∃ t, b' = b.add ⟨r, off, t⟩ ∧ b.instr.mentions r = true ∧
        s.Made (detachAll r off bs s).2 t := by
  induction bs generalizing s with
  | nil => cases h
  | cons b rest ih =>
    rw [detachAll] at h ⊢
    split at h
    · rename_i hm
      rw [if_pos hm]
      have hgrow := grows_detachAll r off rest s.freshReg.2
      rcases mem_cons.mp h with rfl | h
      · exact ⟨b, mem_cons_self, Or.inr ⟨_, rfl, hm, s.made_freshReg.mono (.refl s) hgrow⟩⟩
      · obtain ⟨b₀, hb, h1 | ⟨t, h1, h2, h3⟩⟩ := ih h
        · exact ⟨b₀, mem_cons_of_mem _ hb, Or.inl h1⟩
        · exact ⟨b₀, mem_cons_of_mem _ hb,
            Or.inr ⟨t, h1, h2, h3.mono s.grows_freshReg (.refl _)⟩⟩
    · rename_i hm
      rw [if_neg hm]
      rcases mem_cons.mp h with rfl | h
      · exact ⟨b', mem_cons_self, Or.inl ⟨rfl, Bool.eq_false_iff.mpr hm⟩⟩
      · obtain ⟨b₀, hb, h1⟩ := ih h
        exact ⟨b₀, mem_cons_of_mem _ hb, h1⟩

theorem map_instr_detachAll (r : Option Reg) (off : Int64) (bs : List Patch) (s : Supply) :
    (detachAll r off bs s).1.map Patch.instr = bs.map Patch.instr := by
  induction bs generalizing s with
  | nil => rfl
  | cons b rest ih =>
    rw [detachAll]
    split <;> simp only [map_cons, ih, add]

/-- The registers that stand in for others. -/
def temps (bs : List Patch) : List Reg := bs.flatMap fun b => b.standIns.map StandIn.temp

theorem mem_temps {t : Reg} : t ∈ temps bs ↔ ∃ b ∈ bs, ∃ a ∈ b.standIns, a.temp = t := by
  simp [temps, mem_flatMap]

theorem mem_temps_detachAll {off : Int64} {s : Supply} {t : Reg}
    (h : t ∈ temps (detachAll r off bs s).1) :
    t ∈ temps bs ∨ s.Made (detachAll r off bs s).2 t := by
  obtain ⟨b', hb', a, ha, rfl⟩ := mem_temps.mp h
  obtain ⟨b, hb, ⟨rfl, -⟩ | ⟨t, rfl, -, ht⟩⟩ := mem_detachAll hb'
  · exact Or.inl (mem_temps.mpr ⟨b', hb, a, ha, rfl⟩)
  · rcases mem_append.mp ha with ha | ha
    · exact Or.inl (mem_temps.mpr ⟨b, hb, a, ha, rfl⟩)
    · rw [mem_singleton] at ha
      subst ha
      exact Or.inr ht

theorem nodup_temps_detachAll (off : Int64) {s : Supply}
    (hold : ∀ t ∈ temps bs, s.Knows (some t)) (h : (temps bs).Nodup) :
    (temps (detachAll r off bs s).1).Nodup := by
  induction bs generalizing s with
  | nil => exact nodup_nil
  | cons b rest ih =>
    have hcons : temps (b :: rest) = b.standIns.map StandIn.temp ++ temps rest := rfl
    rw [hcons] at h hold
    obtain ⟨h1, h2, h3⟩ := nodup_append'.mp h
    have holdr : ∀ t ∈ temps rest, s.Knows (some t) := fun t ht =>
      hold t (mem_append_right _ ht)
    -- what stands in at this instruction stands in at none of the rest
    have hout : ∀ {t} {s' : Supply}, t ∈ b.standIns.map StandIn.temp → s.Grows s' →
        t ∉ temps (detachAll r off rest s').1 := by
      intro t s' ht hs ht'
      rcases mem_temps_detachAll ht' with ht' | ht'
      · exact h3 ht ht'
      · exact ((hold t (mem_append_left _ ht)).mono hs).ne ht' rfl
    rw [detachAll]
    split
    · have ih' := ih (s := s.freshReg.2) (fun t ht => (holdr t ht).mono s.grows_freshReg) h2
      show (temps (b.add ⟨r, off, s.freshReg.1⟩ :: _)).Nodup
      have hadd : (b.add ⟨r, off, s.freshReg.1⟩).standIns.map StandIn.temp =
          b.standIns.map StandIn.temp ++ [s.freshReg.1] := by
        simp [add]
      rw [temps, flatMap_cons, hadd]
      refine nodup_append'.mpr ⟨nodup_append'.mpr ⟨h1, nodup_singleton _, ?_⟩, ih', ?_⟩
      · intro t ht hnew
        rw [mem_singleton] at hnew
        subst hnew
        exact (hold _ (mem_append_left _ ht)).ne s.made_freshReg rfl
      · intro t ht ht'
        rcases mem_append.mp ht with ht | ht
        · exact hout ht s.grows_freshReg ht'
        · rw [mem_singleton] at ht
          subst ht
          rcases mem_temps_detachAll ht' with ht' | ht'
          · exact (holdr _ ht').ne s.made_freshReg rfl
          · exact s.made_freshReg.knows.ne ht' rfl
    · show (temps (b :: _)).Nodup
      rw [temps, flatMap_cons]
      exact nodup_append'.mpr ⟨h1, ih holdr h2, fun t ht => hout ht (.refl s)⟩

end Patch

/-! ### Layouts -/

/-- Patched instructions of some code, with the registers that are spilled and their slots: each
register that was spilled has another one standing in where an instruction refers to it. -/
structure Layout (code : Code) (slots : List (Option Reg × Int64)) (s : Supply) (bs : List Patch)
    (s' : Supply) : Prop where
  instrs : bs.map Patch.instr = code
  slot : ∀ b ∈ bs, b.standIns.map StandIn.slot = slots.filter fun p => b.instr.mentions p.1
  made : ∀ t ∈ Patch.temps bs, s.Made s' t
  nodup : (Patch.temps bs).Nodup
  nodup_slots : (slots.map Prod.fst).Nodup
  known : ∀ p ∈ slots, s.Knows p.1
  grows : s.Grows s'

namespace Layout

variable {code : Code} {slots : List (Option Reg × Int64)} {s s' : Supply} {bs : List Patch}
  {b : Patch} {d : Dialect} {fp r : Option Reg}

theorem init (code : Code) (s : Supply) : Layout code [] s (code.map fun x => ⟨x, []⟩) s where
  instrs := by simp [Function.comp_def]
  slot b hb := by
    obtain ⟨x, -, rfl⟩ := mem_map.mp hb
    rfl
  made t ht := by
    obtain ⟨b, hb, a, ha, -⟩ := Patch.mem_temps.mp ht
    obtain ⟨x, -, rfl⟩ := mem_map.mp hb
    cases ha
  nodup := by
    have : Patch.temps (code.map fun x => ⟨x, []⟩) = [] := by simp [Patch.temps]
    rw [this]
    exact nodup_nil
  nodup_slots := nodup_nil
  known p hp := by cases hp
  grows := .refl s

theorem codeAll_init (code : Code) : Patch.codeAll d fp (code.map fun x => ⟨x, []⟩) = code := by
  induction code with
  | nil => rfl
  | cons x rest ih =>
    unfold Patch.codeAll at ih ⊢
    rw [map_cons, flatMap_cons, ih]
    have hx : Patch.code d fp ⟨x, []⟩ = [x] := by
      have hid : Patch.rename ⟨x, []⟩ = id := by
        funext r
        rfl
      simp [Patch.code, Patch.loads, Patch.stores, Patch.body, hid]
    rw [hx]
    rfl

variable (h : Layout code slots s bs s')
include h

theorem map_reg (hb : b ∈ bs) :
    b.standIns.map StandIn.reg = (slots.map Prod.fst).filter b.instr.mentions := by
  have hslot := congrArg (List.map Prod.fst) (h.slot b hb)
  rw [map_map] at hslot
  rw [filter_map]
  exact hslot

theorem nodup_reg (hb : b ∈ bs) : (b.standIns.map StandIn.reg).Nodup := by
  rw [h.map_reg hb]
  exact h.nodup_slots.filter _

theorem mem_reg (hb : b ∈ bs) :
    r ∈ b.standIns.map StandIn.reg ↔ r ∈ slots.map Prod.fst ∧ b.instr.mentions r = true := by
  rw [h.map_reg hb, mem_filter]

theorem made_temp (hb : b ∈ bs) {a : StandIn} (ha : a ∈ b.standIns) : s.Made s' a.temp :=
  h.made _ (Patch.mem_temps.mpr ⟨b, hb, a, ha, rfl⟩)

theorem mem_regs {y : Option Reg} (hy : y ∈ (Patch.codeAll d fp bs).regs) :
    y = fp ∨ (∃ t ∈ Patch.temps bs, y = some t) ∨ y ∈ code.regs ∧ y ∉ slots.map Prod.fst := by
  obtain ⟨x, hx, hxy⟩ := Code.mem_regs.mp hy
  obtain ⟨b, hb, hx⟩ := mem_flatMap.mp hx
  rcases Patch.mem_regs_code (Code.mem_regs.mpr ⟨x, hx, hxy⟩) with h1 | ⟨a, ha, h1⟩ | ⟨h1, h2⟩
  · exact Or.inl h1
  · exact Or.inr (Or.inl ⟨a.temp, Patch.mem_temps.mpr ⟨b, hb, a, ha, rfl⟩, h1⟩)
  · refine Or.inr (Or.inr ⟨?_, fun hs => h2 ((h.mem_reg hb).mpr ⟨hs, h1⟩)⟩)
    rw [← h.instrs]
    exact Code.mem_regs.mpr ⟨b.instr, mem_map_of_mem hb, Instr.mentions_iff.mp h1⟩

theorem detachAll (hr : s.Knows r) (hnew : r ∉ slots.map Prod.fst) (off : Int64) :
    Layout code (slots ++ [(r, off)]) s (Patch.detachAll r off bs s').1
      (Patch.detachAll r off bs s').2 := by
  have hgrow := Patch.grows_detachAll r off bs s'
  refine ⟨(Patch.map_instr_detachAll r off bs s').trans h.instrs, fun b' hb' => ?_, fun t ht => ?_,
    Patch.nodup_temps_detachAll off (fun t ht => (h.made t ht).knows) h.nodup, ?_, fun p hp => ?_,
    h.grows.trans hgrow⟩
  · obtain ⟨b, hb, ⟨rfl, hm⟩ | ⟨t, rfl, hm, -⟩⟩ := Patch.mem_detachAll hb'
    · simp [h.slot b' hb, hm]
    · have hadd : (b.add ⟨r, off, t⟩).standIns.map StandIn.slot =
          b.standIns.map StandIn.slot ++ [(r, off)] := by
        simp [Patch.add, StandIn.slot]
      rw [hadd, h.slot b hb, filter_append]
      simp [Patch.add, hm]
  · rcases Patch.mem_temps_detachAll ht with ht | ht
    · exact (h.made t ht).mono (.refl s) hgrow
    · exact ht.mono h.grows (.refl _)
  · rw [map_append]
    refine nodup_append'.mpr ⟨h.nodup_slots, nodup_singleton _, fun x hx hx' => ?_⟩
    rw [map_singleton, mem_singleton] at hx'
    subst hx'
    exact hnew hx
  · rcases mem_append.mp hp with hp | hp
    · exact h.known p hp
    · rw [mem_singleton] at hp
      subst hp
      exact hr

theorem spill {f : Frame} (hr : s.Knows r) (hnew : r ∉ slots.map Prod.fst) (hfp : r ≠ f.fp) :
    Code.spill d.spillCode f (Patch.codeAll d f.fp bs) r s' =
      (Patch.codeAll d f.fp (Patch.detachAll r f.allocSlot.1 bs s').1, f.allocSlot.2,
        (Patch.detachAll r f.allocSlot.1 bs s').2) := by
  have hspill : ∀ cs : Code, Code.spill d.spillCode f cs r s' =
      ((Code.detach r (d.loadSlot f.fp f.allocSlot.1)
          (fun t => d.storeAt f.fp f.allocSlot.1 (some t)) cs s').1, f.allocSlot.2,
        (Code.detach r (d.loadSlot f.fp f.allocSlot.1)
          (fun t => d.storeAt f.fp f.allocSlot.1 (some t)) cs s').2) := fun _ => rfl
  rw [hspill, Patch.detach_codeAll (fun b hb hreg => hnew ((h.mem_reg hb).mp hreg).1)
    (fun b hb a ha => hr.ne (h.made_temp hb ha)) hfp]

omit h

/-- The slots for registers that are spilled one after the other. -/
def slotsFor : List (Option Reg) → Frame → List (Option Reg × Int64)
  | [], _ => []
  | r :: rest, f => (r, f.allocSlot.1) :: slotsFor rest f.allocSlot.2

/-- The frame after a number of slots were handed out. -/
def withSlots (f : Frame) : Nat → Frame
  | 0 => f
  | n + 1 => withSlots f.allocSlot.2 n

theorem map_fst_slotsFor (rs : List (Option Reg)) (f : Frame) :
    (slotsFor rs f).map Prod.fst = rs := by
  induction rs generalizing f with
  | nil => rfl
  | cons r rest ih => rw [slotsFor, map_cons, ih]

theorem slotsFor_append (rs rs' : List (Option Reg)) (f : Frame) :
    slotsFor (rs ++ rs') f = slotsFor rs f ++ slotsFor rs' (withSlots f rs.length) := by
  induction rs generalizing f with
  | nil => rfl
  | cons r rest ih => rw [cons_append, slotsFor, slotsFor, ih, cons_append]; rfl

theorem withSlots_add (f : Frame) (m n : Nat) :
    withSlots f (m + n) = withSlots (withSlots f m) n := by
  induction m generalizing f with
  | zero => rw [Nat.zero_add]; rfl
  | succ m ih => rw [Nat.succ_add]; exact ih _

theorem fp_withSlots (f : Frame) (n : Nat) : (withSlots f n).fp = f.fp := by
  induction n generalizing f with
  | zero => rfl
  | succ n ih => exact ih _

/-- Handing out slots changes the size of a frame only. -/
theorem withSlots_eq (f : Frame) (n : Nat) :
    withSlots f n = { f with size := f.size + Int64.ofNat n * f.slotBytes } := by
  induction n generalizing f with
  | zero => simp [withSlots]
  | succ n ih =>
    rw [withSlots, ih]
    show { f with size := f.size + f.slotBytes + Int64.ofNat n * f.slotBytes } = _
    rw [Int64.ofNat_add]
    congr 1
    grind

theorem frame_spillEach (sc : SpillCode) (rs : List (Option Reg)) (code : Code) (f : Frame)
    (s : Supply) : (Code.spillEach sc rs code f s).2.1 = withSlots f rs.length := by
  induction rs generalizing code f s with
  | nil => rfl
  | cons r rest ih =>
    rw [Code.spillEach]
    exact ih _ _ _

/-- Spilling registers one after the other keeps the code patched. -/
theorem spillEach {rs : List (Option Reg)} {f : Frame} (h : Layout code slots s bs s')
    (hr : ∀ r ∈ rs, s.Knows r ∧ r ∉ slots.map Prod.fst ∧ r ≠ f.fp) (hnd : rs.Nodup) :
    ∃ bs', (Code.spillEach d.spillCode rs (Patch.codeAll d f.fp bs) f s').1 =
        Patch.codeAll d f.fp bs' ∧
      Layout code (slots ++ slotsFor rs f) s bs'
        (Code.spillEach d.spillCode rs (Patch.codeAll d f.fp bs) f s').2.2 := by
  induction rs generalizing slots bs f s' with
  | nil =>
    refine ⟨bs, rfl, ?_⟩
    rw [slotsFor, append_nil]
    exact h
  | cons r rest ih =>
    obtain ⟨h1, h2, h3⟩ := hr r mem_cons_self
    obtain ⟨hrest, hnd⟩ := nodup_cons.mp hnd
    have hr' : ∀ x ∈ rest, s.Knows x ∧ x ∉ (slots ++ [(r, f.allocSlot.1)]).map Prod.fst ∧
        x ≠ f.allocSlot.2.fp := by
      intro x hx
      obtain ⟨h4, h5, h6⟩ := hr x (mem_cons_of_mem _ hx)
      refine ⟨h4, fun hmem => ?_, h6⟩
      rw [map_append, mem_append, map_singleton, mem_singleton] at hmem
      rcases hmem with hmem | rfl
      · exact h5 hmem
      · exact hrest hx
    obtain ⟨bs', h4, h5⟩ := ih (h.detachAll h1 h2 f.allocSlot.1) hr' hnd
    rw [Code.spillEach, h.spill h1 h2 h3, slotsFor, append_cons]
    exact ⟨bs', h4, h5⟩

end Layout

end Codegen
