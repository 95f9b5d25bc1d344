import Codegen.Proofs.Execution.Basic
import Codegen.Proofs.Spill.Flow

/-!
# Execution of patched code

What the instructions of patched code do (`Patch.meaning`): those that come from the code before do
what they did, and loads and stores move values between registers and slots of the frame. The loads
and the stores of an instruction run one after the other (`run_loads`, `run_stores`).
-/

namespace Codegen

open Execution List

variable {V A : Type*} {regs : Option Reg → V}

/-! ### What patched code means -/

namespace Patch

/-- Where an instruction of patched code comes from: the code before, or a load or store of a slot. -/
inductive Origin
  | keep (i : Nat)
  | load (off : Int64)
  | store (off : Int64)
deriving DecidableEq, Repr

/-- The origins of the code of a patched instruction, which had the number `i`. -/
def origins (b : Patch) (i : Nat) : List Origin :=
  ((b.standIns.filter fun a => b.instr.reads.contains a.reg).map fun a => .load a.off) ++
    .keep i ::
      (b.standIns.reverse.filter fun a => b.instr.writes.contains a.reg).map fun a => .store a.off

/-- The origins of patched code, the first instruction having had the number `i`. -/
def originsFrom (i : Nat) : List Patch → List Origin
  | [] => []
  | b :: bs => b.origins i ++ originsFrom (i + 1) bs

/-- What an instruction of patched code does: loads and stores go to the slot at the offset from the
frame pointer, which they read last. -/
def Origin.meaning [Inhabited V] [DecidableEq A] (M : Nat → Meaning V A) (addr : V → Int64 → A) :
    Origin → Meaning V A
  | .keep i => M i
  | .load off => fun ins mem =>
    { out := fun _ => mem (addr (ins.getLastD default) off), mem, way := .next }
  | .store off => fun ins mem =>
    { out := fun _ => default
      mem := Function.update mem (addr (ins.getLastD default) off) (ins.headD default)
      way := .next }

/-- What the instructions of patched code do. -/
def meaning [Inhabited V] [DecidableEq A] (M : Nat → Meaning V A) (addr : V → Int64 → A)
    (bs : List Patch) (p : Nat) : Meaning V A :=
  ((originsFrom 0 bs).getD p (.keep 0)).meaning M addr

/-- The visits of instructions that come from the code before, by their places there. -/
def kept (bs : List Patch) (visits : List (Visit V A)) : List (Visit V A) :=
  visits.filterMap fun v : Visit V A =>
    match (originsFrom 0 bs)[v.place]? with
    | some (.keep i) => some { v with place := i }
    | _ => none

variable {d : Dialect} {fp : Option Reg} {bs : List Patch} {b : Patch} {i j : Nat}

theorem length_origins (b : Patch) (i : Nat) : (b.origins i).length = (b.code d fp).length := by
  simp [origins, code, loads, stores]

theorem originsFrom_get (n : Nat) (hb : bs[i]? = some b) (hj : j < (b.code d fp).length) :
    (originsFrom n bs)[start d fp bs i + j]? = (b.origins (n + i))[j]? := by
  induction bs generalizing i n with
  | nil => cases hb
  | cons b' bs ih =>
    have hlen : (b'.origins n).length = (b'.code d fp).length := length_origins b' n
    rw [originsFrom]
    cases i with
    | zero =>
      cases hb
      rw [start_zero, Nat.zero_add, getElem?_append_left (by omega)]
      rfl
    | succ i =>
      rw [start_cons, getElem?_append_right (by omega)]
      have hpos : (b'.code d fp).length + start d fp bs i + j - (b'.origins n).length =
          start d fp bs i + j := by omega
      rw [hpos, ih (n + 1) hb, Nat.add_right_comm, Nat.add_assoc]

theorem origins_get_lt (i : Nat) (hj : j < b.offset d fp) : ∃ a,
    (b.standIns.filter fun a => b.instr.reads.contains a.reg)[j]? = some a ∧
      (b.code d fp)[j]? = some (d.loadSlot fp a.off a.temp) ∧
      (b.origins i)[j]? = some (.load a.off) := by
  have hlen : j < (b.standIns.filter fun a => b.instr.reads.contains a.reg).length := by
    simpa [offset, loads] using hj
  refine ⟨_, getElem?_eq_getElem hlen, ?_, ?_⟩
  · rw [code, getElem?_append_left hj, loads, getElem?_map,
      getElem?_eq_getElem hlen, Option.map_some]
  · rw [origins, getElem?_append_left (by rw [length_map]; exact hlen),
      getElem?_map, getElem?_eq_getElem hlen, Option.map_some]

theorem origins_get_offset (b : Patch) (i : Nat) :
    (b.origins i)[b.offset d fp]? = some (.keep i) := by
  have hlen : b.offset d fp =
      ((b.standIns.filter fun a => b.instr.reads.contains a.reg).map fun a =>
        Origin.load a.off).length := by
    simp [offset, loads]
  rw [origins, hlen]
  simp

theorem origins_get_gt (d : Dialect) (fp : Option Reg) (i : Nat) {a : StandIn}
    (ha : (b.standIns.reverse.filter fun a => b.instr.writes.contains a.reg)[j]? = some a) :
    (b.code d fp)[b.offset d fp + 1 + j]? = some (d.storeAt fp a.off (some a.temp)) ∧
      (b.origins i)[b.offset d fp + 1 + j]? = some (.store a.off) := by
  constructor
  · have hget : (b.code d fp)[b.offset d fp + 1 + j]? = (b.stores d fp)[j]? := by
      show (b.loads d fp ++ b.body :: b.stores d fp)[(b.loads d fp).length + 1 + j]? = _
      rw [getElem?_append_right (by omega),
        show (b.loads d fp).length + 1 + j - (b.loads d fp).length = j + 1 by omega,
        getElem?_cons_succ]
    rw [hget, stores, getElem?_map, ha, Option.map_some]
  · have hlen : b.offset d fp =
        ((b.standIns.filter fun a => b.instr.reads.contains a.reg).map fun a =>
          Origin.load a.off).length := by
      simp [offset, loads]
    rw [origins, hlen, getElem?_append_right (by omega), Nat.add_assoc,
      Nat.add_sub_cancel_left, Nat.add_comm 1 j, getElem?_cons_succ, getElem?_map, ha,
      Option.map_some]

theorem kept_append (vs vs' : List (Visit V A)) : kept bs (vs ++ vs') = kept bs vs ++ kept bs vs' :=
  filterMap_append

variable [Inhabited V] [DecidableEq A] {M : Nat → Meaning V A} {addr : V → Int64 → A}
  {c : Config V A} {o : Origin} {x : Instr} {v : V}

theorem meaning_eq (hb : bs[i]? = some b) (hj : j < (b.code d fp).length)
    (ho : (b.origins i)[j]? = some o) :
    meaning M addr bs (start d fp bs i + j) = o.meaning M addr := by
  rw [meaning, getD_eq_getElem?_getD, originsFrom_get 0 hb hj, Nat.zero_add, ho,
    Option.getD_some]

omit [Inhabited V] [DecidableEq A] in
/-- The visits of loads and stores are not kept. -/
theorem kept_visit_eq_nil (hb : bs[i]? = some b) (hj : j < (b.code d fp).length)
    (ho : (b.origins i)[j]? = some o) (hne : ∀ n, o ≠ .keep n) {u : Visit V A}
    (hu : u.place = start d fp bs i + j) : kept bs [u] = [] := by
  simp only [kept, filterMap_cons, filterMap_nil, hu, originsFrom_get 0 hb hj,
    Nat.zero_add, ho]
  cases o with
  | keep n => exact absurd rfl (hne n)
  | load off => rfl
  | store off => rfl

theorem goto_next_of_dests (code : Code) (p : Nat) (hx : x.dests = []) :
    code.goto p x .next = code.inside (p + 1) := by
  rw [Code.goto, if_pos (by simp [Instr.fallsThrough, hx])]

theorem exec_load (code : Code) {M' : Nat → Meaning V A} {p : Nat} {off : Int64} {t : Reg}
    (hM : M' p = (Origin.load off).meaning M addr) (c : Config V A) :
    code.exec M' p (d.loadSlot fp off t) c =
      { pc := code.inside (p + 1)
        regs := Function.update c.regs (some t) (c.mem (addr (c.regs fp) off))
        mem := c.mem } := by
  unfold Code.exec
  rw [hM]
  show Config.mk (code.goto p _ .next) _ _ = _
  rw [goto_next_of_dests _ _ rfl]
  rfl

theorem exec_store (code : Code) {M' : Nat → Meaning V A} {p : Nat} {off : Int64} {t : Reg}
    (hM : M' p = (Origin.store off).meaning M addr) (c : Config V A) :
    code.exec M' p (d.storeAt fp off (some t)) c =
      { pc := code.inside (p + 1)
        regs := c.regs
        mem := Function.update c.mem (addr (c.regs fp) off) (c.regs (some t)) } := by
  unfold Code.exec
  rw [hM]
  show Config.mk (code.goto p _ .next) _ _ = _
  rw [goto_next_of_dests _ _ rfl]
  rfl

/-! ### Loads and stores one after the other -/

/-- The registers after loads. -/
def fetchAll (addr : V → Int64 → A) (v : V) (mem : A → V) (as : List StandIn)
    (regs : Option Reg → V) : Option Reg → V :=
  as.foldl (fun regs a => Function.update regs (some a.temp) (mem (addr v a.off))) regs

/-- The memory after stores. -/
def storeAll (addr : V → Int64 → A) (v : V) (regs : Option Reg → V) (as : List StandIn)
    (mem : A → V) : A → V :=
  as.foldl (fun mem a => Function.update mem (addr v a.off) (regs (some a.temp))) mem

omit [Inhabited V] [DecidableEq A] in
theorem fetchAll_of_ne {mem : A → V} {as : List StandIn} {r : Option Reg}
    (h : ∀ a ∈ as, r ≠ some a.temp) : fetchAll addr v mem as regs r = regs r := by
  induction as generalizing regs with
  | nil => rfl
  | cons a as ih =>
    show fetchAll addr v mem as (Function.update regs (some a.temp) _) r = _
    rw [ih fun a ha => h a (mem_cons_of_mem _ ha),
      Function.update_of_ne (h a mem_cons_self)]

omit [Inhabited V] [DecidableEq A] in
theorem fetchAll_of_mem {mem : A → V} {as : List StandIn} {a : StandIn}
    (hnd : (as.map StandIn.temp).Nodup) (ha : a ∈ as) :
    fetchAll addr v mem as regs (some a.temp) = mem (addr v a.off) := by
  induction as generalizing regs with
  | nil => cases ha
  | cons a' as ih =>
    obtain ⟨hnot, hnd⟩ := nodup_cons.mp hnd
    show fetchAll addr v mem as (Function.update regs (some a'.temp) _) (some a.temp) = _
    rcases mem_cons.mp ha with rfl | ha
    · rw [fetchAll_of_ne fun a' ha' heq => hnot (mem_map.mpr ⟨a', ha', (Option.some.inj heq).symm⟩),
        Function.update_self]
    · exact ih hnd ha

omit [Inhabited V] in
theorem storeAll_of_ne {mem : A → V} {as : List StandIn} {p : A}
    (h : ∀ a ∈ as, p ≠ addr v a.off) : storeAll addr v regs as mem p = mem p := by
  induction as generalizing mem with
  | nil => rfl
  | cons a as ih =>
    show storeAll addr v regs as (Function.update mem (addr v a.off) _) p = _
    rw [ih fun a ha => h a (mem_cons_of_mem _ ha),
      Function.update_of_ne (h a mem_cons_self)]

omit [Inhabited V] in
theorem storeAll_of_mem {mem : A → V} {as : List StandIn} {a : StandIn}
    (hnd : (as.map fun a => addr v a.off).Nodup) (ha : a ∈ as) :
    storeAll addr v regs as mem (addr v a.off) = regs (some a.temp) := by
  induction as generalizing mem with
  | nil => cases ha
  | cons a' as ih =>
    obtain ⟨hnot, hnd⟩ := nodup_cons.mp hnd
    show storeAll addr v regs as (Function.update mem (addr v a'.off) _) (addr v a.off) = _
    rcases mem_cons.mp ha with rfl | ha
    · rw [storeAll_of_ne fun a' ha' heq => hnot (mem_map.mpr ⟨a', ha', heq.symm⟩),
        Function.update_self]
    · exact ih hnd ha

variable (M addr)

theorem run_loads (hb : bs[i]? = some b) (hpc : c.pc = some (start d fp bs i)) (hv : c.regs fp = v)
    (hfp : ∀ a ∈ b.standIns, fp ≠ some a.temp) (hj : j ≤ b.offset d fp) :
    kept bs ((codeAll d fp bs).run (meaning M addr bs) j c).2 = [] ∧
      ((codeAll d fp bs).run (meaning M addr bs) j c).1 =
        { pc := some (start d fp bs i + j)
          regs := fetchAll addr v c.mem
            ((b.standIns.filter fun a => b.instr.reads.contains a.reg).take j) c.regs
          mem := c.mem } := by
  induction j with
  | zero =>
    refine ⟨rfl, ?_⟩
    rw [Nat.add_zero, ← hpc]
    rfl
  | succ j ih =>
    obtain ⟨hk, hrun⟩ := ih (by omega)
    obtain ⟨a, ha, hcode, horigin⟩ := origins_get_lt i hj
    have hlt := (List.getElem?_eq_some_iff.mp hcode).1
    have hget := codeAll_get hb hlt
    rw [hcode] at hget
    have hoff := offset_lt d fp b
    have hnext : start d fp bs i + j + 1 < (codeAll d fp bs).length := by
      have hlast := codeAll_get hb hoff
      rw [code_get_offset] at hlast
      have := (List.getElem?_eq_some_iff.mp hlast).1
      omega
    rw [run_succ, hrun, step_of_getElem? rfl hget]
    refine ⟨?_, ?_⟩
    · rw [kept_append, hk, nil_append]
      exact kept_visit_eq_nil hb hlt horigin (fun n h => by cases h) rfl
    · have hframe : fetchAll addr v c.mem
          ((b.standIns.filter fun a => b.instr.reads.contains a.reg).take j) c.regs fp = v := by
        rw [fetchAll_of_ne fun a ha => hfp a (mem_filter.mp (mem_of_mem_take ha)).1, hv]
      rw [exec_load _ (meaning_eq hb hlt horigin), Code.inside, if_pos hnext, take_add_one, ha]
      dsimp only
      rw [hframe]
      simp only [Option.toList_some, fetchAll, foldl_append, foldl_cons, foldl_nil]
      rfl

theorem run_stores (hb : bs[i]? = some b)
    (hpc : c.pc = (codeAll d fp bs).inside (start d fp bs i + b.offset d fp + 1))
    (hv : c.regs fp = v)
    (hj : j ≤ (b.standIns.reverse.filter fun a => b.instr.writes.contains a.reg).length) :
    kept bs ((codeAll d fp bs).run (meaning M addr bs) j c).2 = [] ∧
      ((codeAll d fp bs).run (meaning M addr bs) j c).1 =
        { pc := (codeAll d fp bs).inside (start d fp bs i + b.offset d fp + 1 + j)
          regs := c.regs
          mem := storeAll addr v c.regs
            ((b.standIns.reverse.filter fun a => b.instr.writes.contains a.reg).take j) c.mem } := by
  induction j with
  | zero =>
    refine ⟨rfl, ?_⟩
    rw [Nat.add_zero, ← hpc]
    rfl
  | succ j ih =>
    obtain ⟨hk, hrun⟩ := ih (by omega)
    have ha := getElem?_eq_getElem (Nat.lt_of_succ_le hj)
    obtain ⟨hcode, horigin⟩ := origins_get_gt d fp i ha
    have hlt := (List.getElem?_eq_some_iff.mp hcode).1
    have hget := codeAll_get hb hlt
    rw [hcode] at hget
    have hin := (List.getElem?_eq_some_iff.mp hget).1
    have hplace : start d fp bs i + b.offset d fp + 1 + j =
        start d fp bs i + (b.offset d fp + 1 + j) := by omega
    rw [run_succ, hrun, step_of_getElem? (by rw [hplace, Code.inside, if_pos hin]) hget]
    refine ⟨?_, ?_⟩
    · rw [kept_append, hk, nil_append]
      exact kept_visit_eq_nil hb hlt horigin (fun n h => by cases h) rfl
    · rw [exec_store _ (meaning_eq hb hlt horigin), take_add_one, ha]
      dsimp only
      rw [hv, ← hplace]
      simp only [Option.toList_some, storeAll, foldl_append, foldl_cons, foldl_nil]
      rfl

end Patch

end Codegen
