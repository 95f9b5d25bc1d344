import Codegen.Proofs.Execution.Conduct
import Codegen.Proofs.Execution.Spilling

/-!
# Patched code with any effects

Whatever its instructions do, patched code keeps track of the code before (`Underway.step`): each
instruction that comes from there has its effect on the registers there, and loads and stores leave
these as they are. Of the memory only the slots matter.
-/

namespace Codegen

open Execution List

variable {V A : Type*}

namespace Patch

/-- What an instruction of patched code may do where registers hold `regs` and the frame pointer is
`v`: moves copy, a load reads its slot, and of the slots only a store changes its own, to what it reads
first. An instruction that comes from nowhere sets up the frame. -/
structure Allows (fp : Option Reg) (addr : V → Int64 → A) (slots : List (Option Reg × Int64))
    (o : Option Origin) (x : Instr) (v : V) (regs : Option Reg → V) (mem : A → V) (e : Effect V A) :
    Prop where
  slots : ∀ p ∈ slots, o ≠ some (.store p.2) → e.mem (addr v p.2) = mem (addr v p.2)
  load : ∀ off, o = some (.load off) → e.out 0 = mem (addr v off)
  store : ∀ off r, o = some (.store off) → x.reads.head? = some r → e.mem (addr v off) = regs r
  copy : ∀ u d n, x.Copies fp u d → x.writes[n]? = some d → e.out n = regs u

variable {d : Dialect} {fp : Option Reg} {addr : V → Int64 → A} {v : V} {as : List StandIn}

/-- What is allowed depends only on what is read. -/
theorem Allows.congr {slots : List (Option Reg × Int64)} {o : Option Origin} {x : Instr}
    {regs regs' : Option Reg → V} {mem : A → V} {e : Effect V A}
    (h : Allows fp addr slots o x v regs' mem e) (hregs : ∀ r ∈ x.reads, regs' r = regs r) :
    Allows fp addr slots o x v regs mem e where
  slots := h.slots
  load := h.load
  store off r ho hr := (h.store off r ho hr).trans (hregs r (mem_of_mem_head? hr))
  copy u d n hc hn := (h.copy u d n hc hn).trans (hregs u ((hc.reads u).mpr rfl).1)

/-- Something is allowed, whichever way control goes, if loads and stores are no moves. -/
theorem exists_allows {slots : List (Option Reg × Int64)} {o : Option Origin} {x : Instr}
    (haddr : Function.Injective (addr v)) (regs : Option Reg → V) (mem : A → V) (way : Way)
    (hmove : ∀ o', o = some o' → (∀ i, o' ≠ .keep i) → x.isMove = false) :
    ∃ e : Effect V A, e.way = way ∧ Allows fp addr slots o x v regs mem e := by
  classical
  -- a move reads one register
  obtain ⟨value, hvalue⟩ : ∃ value, ∀ u d, x.Copies fp u d → value = regs u := by
    by_cases hc : ∃ u d, x.Copies fp u d
    · obtain ⟨u, d, hc⟩ := hc
      exact ⟨regs u, fun u' d' hc' => by rw [(hc'.reads u).mp ((hc.reads u).mpr rfl)]⟩
    · exact ⟨v, fun u d h => absurd ⟨u, d, h⟩ hc⟩
  have hne (o' : Origin) (ho : o = some o') (hkeep : ∀ i, o' ≠ .keep i) (u d : Option Reg) :
      ¬ x.Copies fp u d := fun hc => by
    cases (hmove o' ho hkeep).symm.trans hc.isMove
  match o with
  | none | some (.keep i) =>
    exact ⟨⟨fun _ => value, mem, way⟩, rfl, fun _ _ _ => rfl, nofun, nofun,
      fun u d _ hc _ => hvalue u d hc⟩
  | some (.load off) =>
    refine ⟨⟨fun _ => mem (addr v off), mem, way⟩, rfl, fun _ _ _ => rfl, ?_, nofun,
      fun u d _ hc _ => absurd hc (hne _ rfl nofun u d)⟩
    rintro _ ⟨⟩
    rfl
  | some (.store off) =>
    refine ⟨⟨fun _ => v, Function.update mem (addr v off) ((x.reads.head?.map regs).getD v), way⟩, rfl,
      fun p _ hp => ?_, nofun, ?_, fun u d _ hc _ => absurd hc (hne _ rfl nofun u d)⟩
    · have hoff : addr v p.2 ≠ addr v off := fun heq => hp (by rw [haddr heq])
      exact Function.update_of_ne hoff _ mem
    · rintro _ r ⟨⟩ hr
      rw [hr]
      exact Function.update_self _ _ mem

/-- Loads depend on the slots only. -/
theorem fetchAll_congr {mem mem' : A → V} (h : ∀ a ∈ as, mem' (addr v a.off) = mem (addr v a.off))
    (regs : Option Reg → V) : fetchAll addr v mem' as regs = fetchAll addr v mem as regs := by
  induction as generalizing regs with
  | nil => rfl
  | cons a as ih =>
    rw [forall_mem_cons] at h
    show fetchAll addr v mem' as (Function.update regs _ (mem' (addr v a.off))) = _
    rw [ih h.2, h.1]
    rfl

/-- What stores leave at an address depends on what was there only. -/
theorem storeAll_congr [DecidableEq A] {mem mem' : A → V} {q : A} (h : mem' q = mem q)
    (regs : Option Reg → V) (as : List StandIn) :
    storeAll addr v regs as mem' q = storeAll addr v regs as mem q := by
  induction as generalizing mem mem' with
  | nil => exact h
  | cons a as ih =>
    refine ih ?_
    dsimp only
    by_cases hq : q = addr v a.off
    · rw [hq, Function.update_self, Function.update_self]
    · rw [Function.update_of_ne hq, Function.update_of_ne hq, h]

end Patch

namespace Patchable

open Patch

variable {d : Dialect} {fp : Option Reg} {code : Code} {slots : List (Option Reg × Int64)}
  {s s' : Supply} {bs : List Patch} {b : Patch}

/-- What was a move is one in the patched code. -/
theorem copies_body (h : Patchable fp code slots s bs s') (hb : b ∈ bs) {u w : Option Reg}
    (hc : b.instr.Copies fp u w) : b.body.Copies fp (b.rename u) (b.rename w) := by
  have hmap {list : List (Option Reg)} {q : Option Reg} (hq : ∀ r, r ∈ list ∧ r ≠ fp ↔ r = q)
      (r : Option Reg) : r ∈ list.map b.rename ∧ r ≠ fp ↔ r = b.rename q := by
    constructor
    · rintro ⟨hmem, hne⟩
      obtain ⟨r₀, hr₀, rfl⟩ := mem_map.mp hmem
      rw [(hq r₀).mp ⟨hr₀, fun heq => hne ((h.rename_eq_fp_iff hb).mpr heq)⟩]
    · rintro rfl
      obtain ⟨hmem, hne⟩ := (hq q).mpr rfl
      exact ⟨mem_map_of_mem hmem, fun heq => hne ((h.rename_eq_fp_iff hb).mp heq)⟩
  exact ⟨hc.isMove, hmap hc.reads, hmap hc.writes⟩

end Patchable

namespace Matches

variable {d : Dialect} {fp : Option Reg} {addr : V → Int64 → A} {v : V} {code : Code}
  {slots : List (Option Reg × Int64)} {bs : List Patch} {c c' : Config V A}

/-- Besides the slots the memory may be any. -/
theorem of_slots (h : Matches d fp addr v code slots bs c c') {mem : A → V}
    (hmem : ∀ p ∈ slots, mem (addr v p.2) = c'.mem (addr v p.2)) :
    Matches d fp addr v code slots bs { c with mem } { c' with mem } :=
  { h with
    slot := fun i hi p hp hl => (hmem p hp).trans (h.slot i hi p hp hl)
    mem := fun _ _ => rfl }

end Matches

section Tracking

open Patch Matches

variable (d : Dialect) (fp : Option Reg) (addr : V → Int64 → A) (v : V) (code : Code)
  (slots : List (Option Reg × Int64)) (bs : List Patch)

/-- The stand-ins that are loaded in front of an instruction. -/
def Patch.loaded (b : Patch) : List StandIn :=
  b.standIns.filter fun a => b.instr.reads.contains a.reg

/-- The stand-ins that are stored behind an instruction. -/
def Patch.stored (b : Patch) : List StandIn :=
  b.standIns.reverse.filter fun a => b.instr.writes.contains a.reg

/-- Patched code at the place `p`, on its way through the code of one instruction, while the code
before is at `c`: some registers have been loaded and the instruction is still to come, or it has been
executed, and the configurations match once the rest has been stored. -/
inductive Underway [DecidableEq A] (c : Config V A) (p : Nat) (regs : Option Reg → V) (mem : A → V) :
    Prop
  | loading {i j : Nat} {b : Patch} {regs₀ : Option Reg → V} (patch : bs[i]? = some b)
      (here : j ≤ b.offset d fp) (place : p = start d fp bs i + j) (pc : c.pc = some i)
      (before : Matches d fp addr v code slots bs { c with mem } ⟨some (start d fp bs i), regs₀, mem⟩)
      (fetched : regs = fetchAll addr v mem (b.loaded.take j) regs₀)
  | storing {i k : Nat} {b : Patch} (patch : bs[i]? = some b) (here : k < b.stored.length)
      (place : p = start d fp bs i + (b.offset d fp + 1 + k)) (pc : c.pc = code.inside (i + 1))
      (behind : Matches d fp addr v code slots bs
        { c with mem := storeAll addr v regs (b.stored.drop k) mem }
        ⟨c.pc.map (start d fp bs), regs, storeAll addr v regs (b.stored.drop k) mem⟩)

variable {d fp addr v code slots bs} {s s' : Supply} {c : Config V A} {p p' i : Nat}
  {regs : Option Reg → V} {mem : A → V} {x : Instr} {b : Patch} {o : Origin} {e : Effect V A}

theorem Patch.mem_of_mem_loaded {a : StandIn} (ha : a ∈ b.loaded) : a ∈ b.standIns :=
  (mem_filter.mp ha).1

variable (d fp) in
theorem Patch.length_loaded (b : Patch) : b.loaded.length = b.offset d fp := by
  simp [Patch.loaded, offset, loads]

theorem Patch.length_stored (b : Patch) :
    (b.code d fp).length = b.offset d fp + 1 + b.stored.length := by
  rw [length_code, stores, length_map]
  rfl

/-- Control goes on from an instruction without destinations. -/
theorem goto_of_dests_eq_nil {code : Code} (hx : x.dests = []) (h : code.goto p x e.way = some p') :
    p' = p + 1 ∧ p + 1 < code.length := by
  cases hway : e.way with
  | next =>
    rw [hway, goto_next_of_dests _ _ hx] at h
    exact inside_eq_some.mp h
  | dest n =>
    rw [hway] at h
    simp [Code.goto, hx] at h

variable [DecidableEq A]

/-- Patched code that matches the code before is on its way. -/
theorem underway_of_matches
    (hm : Matches d fp addr v code slots bs { c with mem } ⟨some p, regs, mem⟩)
    (hp : p < (codeAll d fp bs).length) : Underway d fp addr v code slots bs c p regs mem := by
  obtain ⟨i, hi, hstart⟩ := Option.map_eq_some_iff.mp hm.pc.symm
  have hlt : i < bs.length := by
    by_contra hge
    rw [start_eq_length (Nat.le_of_not_lt hge)] at hstart
    omega
  rw [← hstart] at hm
  exact .loading (getElem?_eq_getElem hlt) (Nat.zero_le _) hstart.symm hi hm rfl

theorem Underway.of_slots (h : Underway d fp addr v code slots bs c p regs mem)
    (hlay : Patchable fp code slots s bs s') {mem' : A → V}
    (hmem : ∀ q ∈ slots, mem' (addr v q.2) = mem (addr v q.2)) :
    Underway d fp addr v code slots bs c p regs mem' := by
  cases h with
  | @loading i j b regs₀ hb hj hp hpc hm hregs =>
    refine .loading hb hj hp hpc (hm.of_slots hmem) ?_
    rw [hregs]
    refine (fetchAll_congr (fun a ha => hmem a.slot ?_) regs₀).symm
    exact hlay.slot_mem (mem_of_getElem? hb) (mem_of_mem_loaded (mem_of_mem_take ha))
  | storing hb hk hp hpc hm =>
    exact .storing hb hk hp hpc (hm.of_slots fun q hq => storeAll_congr (hmem q hq) regs _)

/-- The frame pointer stays. -/
theorem Underway.frame (h : Underway d fp addr v code slots bs c p regs mem)
    (hlay : Patchable fp code slots s bs s') : regs fp = v := by
  cases h with
  | loading hb hj hp hpc hm hregs =>
    rw [hregs, fetchAll_of_ne fun a ha => hlay.fp_ne_temp (mem_of_getElem? hb)
      (mem_of_mem_loaded (mem_of_mem_take ha))]
    exact hm.frame'
  | storing hb hk hp hpc hm => exact hm.frame'

/-- A load brings the code one place on. -/
theorem Underway.load (hlay : Patchable fp code slots s bs s') {j : Nat} {regs₀ : Option Reg → V}
    (hb : bs[i]? = some b) (hj : j < b.offset d fp) (hpc : c.pc = some i)
    (hm : Matches d fp addr v code slots bs { c with mem } ⟨some (start d fp bs i), regs₀, mem⟩)
    (hregs : regs = fetchAll addr v mem (b.loaded.take j) regs₀)
    (hx : (codeAll d fp bs)[start d fp bs i + j]? = some x)
    (ho : (originsFrom 0 bs)[start d fp bs i + j]? = some o)
    (he : Allows fp addr slots (some o) x v regs mem e)
    (hgo : (codeAll d fp bs).goto (start d fp bs i + j) x e.way = some p') :
    (∀ n, o ≠ .keep n) ∧
      Underway d fp addr v code slots bs c p' (assign x.writes e.out regs) e.mem := by
  obtain ⟨a, ha, hcode, horigin⟩ := origins_get_lt i hj
  have hlt := (List.getElem?_eq_some_iff.mp hcode).1
  rw [codeAll_get hb hlt, hcode] at hx
  rw [originsFrom_get 0 hb hlt, Nat.zero_add, horigin] at ho
  cases hx
  cases ho
  obtain ⟨rfl, -⟩ := goto_of_dests_eq_nil rfl hgo
  have hslots : ∀ q ∈ slots, e.mem (addr v q.2) = mem (addr v q.2) := fun q hq =>
    he.slots q hq nofun
  have hloads : ∀ a ∈ b.loaded.take (j + 1), e.mem (addr v a.off) = mem (addr v a.off) :=
    fun a ha => hslots a.slot (hlay.slot_mem (mem_of_getElem? hb)
      (mem_of_mem_loaded (mem_of_mem_take ha)))
  refine ⟨nofun, .loading hb hj (Nat.add_assoc ..) hpc (hm.of_slots hslots) ?_⟩
  have ha : b.loaded[j]? = some a := ha
  show Function.update regs (some a.temp) (e.out 0) = _
  rw [he.load a.off rfl, fetchAll_congr hloads, take_add_one, ha, hregs]
  simp only [Option.toList_some, fetchAll, foldl_append, foldl_cons, foldl_nil]

/-- A store brings the code one place on, or to the next instruction. -/
theorem Underway.store (hlay : Patchable fp code slots s bs s')
    (haddr : Function.Injective (addr v)) {k : Nat} (hb : bs[i]? = some b)
    (hk : k < b.stored.length) (hpc : c.pc = code.inside (i + 1))
    (hm : Matches d fp addr v code slots bs
      { c with mem := storeAll addr v regs (b.stored.drop k) mem }
      ⟨c.pc.map (start d fp bs), regs, storeAll addr v regs (b.stored.drop k) mem⟩)
    (hx : (codeAll d fp bs)[start d fp bs i + (b.offset d fp + 1 + k)]? = some x)
    (ho : (originsFrom 0 bs)[start d fp bs i + (b.offset d fp + 1 + k)]? = some o)
    (he : Allows fp addr slots (some o) x v regs mem e)
    (hgo : (codeAll d fp bs).goto (start d fp bs i + (b.offset d fp + 1 + k)) x e.way = some p') :
    (∀ n, o ≠ .keep n) ∧
      Underway d fp addr v code slots bs c p' (assign x.writes e.out regs) e.mem := by
  have ha : b.stored[k]? = some b.stored[k] := getElem?_eq_getElem hk
  generalize b.stored[k] = a at ha
  obtain ⟨hcode, horigin⟩ := origins_get_gt d fp i ha
  have hlt := (List.getElem?_eq_some_iff.mp hcode).1
  rw [codeAll_get hb hlt, hcode] at hx
  rw [originsFrom_get 0 hb hlt, Nat.zero_add, horigin] at ho
  cases hx
  cases ho
  obtain ⟨rfl, hin⟩ := goto_of_dests_eq_nil rfl hgo
  -- what the store leaves, and with it the rest of the stores
  have hdrop : b.stored.drop k = a :: b.stored.drop (k + 1) := by
    rw [drop_eq_getElem_cons hk, Option.some.inj ((getElem?_eq_getElem hk).symm.trans ha)]
  have hslots : ∀ q ∈ slots, storeAll addr v regs (b.stored.drop (k + 1)) e.mem (addr v q.2) =
      storeAll addr v regs (b.stored.drop k) mem (addr v q.2) := by
    intro q hq
    rw [hdrop]
    refine storeAll_congr ?_ regs _
    dsimp only
    by_cases hqa : q.2 = a.off
    · rw [hqa, Function.update_self]
      exact he.store a.off (some a.temp) rfl rfl
    · rw [Function.update_of_ne fun h => hqa (haddr h)]
      exact he.slots q hq fun h => hqa (Origin.store.inj (Option.some.inj h)).symm
  have hm' := hm.of_slots hslots
  refine ⟨nofun, ?_⟩
  show Underway d fp addr v code slots bs c _ regs e.mem
  by_cases hlast : k + 1 < b.stored.length
  · exact .storing hb hlast (by omega) hpc hm'
  · rw [drop_eq_nil_of_le (Nat.le_of_not_lt hlast)] at hm'
    have hnext : start d fp bs i + (b.offset d fp + 1 + k) + 1 = start d fp bs (i + 1) := by
      rw [start_succ d fp hb, length_stored]
      omega
    have hplace : c.pc.map (start d fp bs) = some (start d fp bs (i + 1)) := by
      rw [hpc, ← hlay.inside_start, Code.inside, if_pos (hnext ▸ hin)]
    rw [hplace] at hm'
    rw [hnext]
    exact underway_of_matches hm' (hnext ▸ hin)

/-- Executing the instruction brings the code to its stores, or to another instruction. -/
theorem Underway.body (hlay : Patchable fp code slots s bs s')
    (haddr : Function.Injective (addr v)) {regs₀ : Option Reg → V} (hb : bs[i]? = some b)
    (hpc : c.pc = some i)
    (hm : Matches d fp addr v code slots bs { c with mem } ⟨some (start d fp bs i), regs₀, mem⟩)
    (hregs : regs = fetchAll addr v mem b.loaded regs₀)
    (he : Allows fp addr slots (some (.keep i)) b.body v regs mem e)
    (hgo : (codeAll d fp bs).goto (start d fp bs i + b.offset d fp) b.body e.way = some p') :
    code.Copied fp i c e ∧ Underway d fp addr v code slots bs (code.perform i b.instr e c) p'
      (assign b.body.writes e.out regs) e.mem := by
  have hmem := mem_of_getElem? hb
  have hx := hlay.getElem?_code hb
  obtain ⟨hfp, hreads, hrest⟩ := hlay.loaded hm hpc hb hregs
  obtain ⟨hfp', htemps, hrest'⟩ := hlay.written hb e.out hfp hrest
  constructor
  · intro y u w n hy hcopies hn
    cases hx.symm.trans hy
    rw [← hreads u ((hcopies.reads u).mpr rfl).1]
    refine he.copy _ _ n (hlay.copies_body hmem hcopies) ?_
    show (b.instr.writes.map b.rename)[n]? = _
    rw [getElem?_map, hn]
    rfl
  have hslots : ∀ a ∈ Layout.places addr v slots, e.mem a = mem a := by
    rintro _ ⟨q, hq, rfl⟩
    exact he.slots q hq nofun
  -- once its stores have run, the configurations match again
  have hbehind {as : List StandIn} {pc : Option Nat} (hsub : ∀ a ∈ as, a ∈ b.standIns)
      (has : (code.perform i b.instr e c).pc ≠ none → as = b.stored)
      (hpc' : pc = (code.perform i b.instr e c).pc.map (start d fp bs)) :
      Matches d fp addr v code slots bs
        { code.perform i b.instr e c with
          mem := storeAll addr v (assign b.body.writes e.out regs) as e.mem }
        ⟨pc, assign b.body.writes e.out regs,
          storeAll addr v (assign b.body.writes e.out regs) as e.mem⟩ :=
    let c₁ : Config V A := ⟨none, assign b.body.writes e.out regs, e.mem⟩
    have hfp₁ : c₁.regs fp = v := hfp'
    (Matches.of_stores (M := fun _ _ _ => e) hlay haddr hm hpc hb hfp₁ htemps hrest'
      (fun _ _ => rfl) hslots hsub has hpc').of_slots fun _ _ => rfl
  have hin : p' < (codeAll d fp bs).length := by
    obtain ⟨y, hy, ⟨-, rfl, hlt⟩ | ⟨l, -, z, hz, -⟩⟩ := follows_of_goto hlay.wellLabelled_labels
      ((codeAll_get hb (offset_lt d fp b)).trans (code_get_offset b)) hgo
    · exact hlt
    · exact (List.getElem?_eq_some_iff.mp hz).1
  have hsub : ∀ a ∈ b.stored, a ∈ b.standIns := fun a ha =>
    mem_reverse.mp (mem_filter.mp ha).1
  by_cases hfall : e.way = .next ∧ b.instr.fallsThrough = true
  · have hnext : (code.perform i b.instr e c).pc = code.inside (i + 1) := by
      show code.goto i b.instr e.way = _
      rw [hfall.1, Code.goto, if_pos hfall.2]
    have hm' := hbehind hsub (fun _ => rfl) rfl
    rw [hfall.1, Code.goto, if_pos (show b.body.fallsThrough = true from hfall.2)] at hgo
    obtain ⟨rfl, -⟩ := inside_eq_some.mp hgo
    by_cases hstored : 0 < b.stored.length
    · exact .storing hb hstored (by omega) hnext hm'
    · have hplace : start d fp bs i + b.offset d fp + 1 = start d fp bs (i + 1) := by
        rw [start_succ d fp hb, length_stored]
        omega
      rw [eq_nil_of_length_eq_zero (Nat.eq_zero_of_not_pos hstored), hnext, ← hlay.inside_start,
        Code.inside, if_pos (hplace ▸ hin), ← hplace] at hm'
      exact underway_of_matches hm' hin
  · -- control jumps, so there are no stores
    have hgoto : some p' = (code.perform i b.instr e c).pc.map (start d fp bs) := by
      rw [← hgo]
      show _ = (code.goto i b.instr e.way).map _
      cases hway : e.way with
      | next =>
        have hno : ¬ b.instr.fallsThrough = true := fun hf => hfall ⟨hway, hf⟩
        rw [Code.goto, Code.goto, if_neg hno, if_neg (show ¬ b.body.fallsThrough = true from hno)]
        rfl
      | dest n => exact hlay.goto_dest b i _ n
    have hdests : b.instr.dests ≠ [] := by
      intro hnil
      cases hway : e.way with
      | next => exact hfall ⟨hway, by simp [Instr.fallsThrough, hnil]⟩
      | dest n =>
        have hbody : b.body.dests = [] := hnil
        rw [hway] at hgo
        simp [Code.goto, hbody] at hgo
    have hstored : [] = b.stored := by
      simp [Patch.stored, hlay.branch b.instr (hlay.mem_code hmem) hdests]
    exact underway_of_matches (hbehind (forall_mem_nil _) (fun _ => hstored) hgoto) hin

/-- One step: an instruction that comes from the code before has its effect there too, and any other
leaves the code before where it is. -/
theorem Underway.step (h : Underway d fp addr v code slots bs c p regs mem)
    (hlay : Patchable fp code slots s bs s') (haddr : Function.Injective (addr v))
    (hx : (codeAll d fp bs)[p]? = some x) (ho : (originsFrom 0 bs)[p]? = some o)
    (he : Allows fp addr slots (some o) x v regs mem e)
    (hgo : (codeAll d fp bs).goto p x e.way = some p') :
    (∃ i y, o = .keep i ∧ c.pc = some i ∧ code[i]? = some y ∧ code.Copied fp i c e ∧
      Underway d fp addr v code slots bs (code.perform i y e c) p'
        (assign x.writes e.out regs) e.mem) ∨
    (∀ i, o ≠ .keep i) ∧
      Underway d fp addr v code slots bs c p' (assign x.writes e.out regs) e.mem := by
  cases h with
  | @loading i j b regs₀ hb hj hp hpc hm hregs =>
    subst hp
    obtain hlt | rfl := Nat.lt_or_eq_of_le hj
    · exact .inr (Underway.load hlay hb hlt hpc hm hregs hx ho he hgo)
    · have hoff := offset_lt d fp b
      rw [codeAll_get hb hoff, code_get_offset] at hx
      rw [originsFrom_get 0 hb hoff, Nat.zero_add, origins_get_offset] at ho
      cases hx
      cases ho
      rw [← length_loaded d fp b, take_length] at hregs
      obtain ⟨hcopied, hnext⟩ := Underway.body hlay haddr hb hpc hm hregs he hgo
      exact .inl ⟨i, b.instr, rfl, hpc, hlay.getElem?_code hb, hcopied, hnext⟩
  | storing hb hk hp hpc hm =>
    subst hp
    exact .inr (Underway.store hlay haddr hb hk hpc hm hx ho he hgo)

end Tracking

end Codegen
