import Codegen.Proofs.Target.Calls
import Mathlib.Data.BitVec
import Mathlib.Data.Int.ConditionallyCompleteOrder
import Mathlib.Order.CompletePartialOrder
import Mathlib.Order.Interval.Set.Disjoint

/-!
# The layout of frames

The slots of a frame are handed out to the program and to registers that are spilled, in any order
(`Frame.serveAll`), each below those before it. They have no byte in common with each other or with
the parameters on the stack, and lie within the size of the frame. A finished function sets up its
frame behind its label, with the size rounded up to a multiple of sixteen, and gives it up before
its last instruction; between the two nothing of its code is lost (`Target.frame_layout`).
-/

namespace Codegen

open Assembly Assembly.Stack List

/-! ### Handing out slots -/

/-- What a slot is asked for: by the program, or for a register that is spilled from some code. -/
inductive Demand
  | program
  | spill (code : Code) (r : Option Reg) (s : Supply)

namespace Frame

/-- Hand out the slot that is asked for: its offset, and the frame with it. -/
def serve (sc : SpillCode) (f : Frame) : Demand → Int64 × Frame
  | .program => f.allocSlot
  | .spill code r s => (f.allocSlot.1, (Code.spill sc f code r s).2.1)

/-- Hand out slots one after the other. -/
def serveAll (sc : SpillCode) (f : Frame) : List Demand → List Int64 × Frame
  | [] => ([], f)
  | d :: ds =>
    let (off, f) := f.serve sc d
    let (offs, f) := f.serveAll sc ds
    (off :: offs, f)

/-- The register is spilled to the slot that is handed out for it. -/
theorem spill_eq_serve (sc : SpillCode) (f : Frame) (code : Code) (r : Option Reg) (s : Supply) :
    Code.spill sc f code r s =
      let served := f.serve sc (.spill code r s)
      let (code, s) := Code.detach r (sc.load f.fp served.1) (sc.store f.fp served.1) code s
      (code, served.2, s) := rfl

theorem serve_eq (sc : SpillCode) (f : Frame) (d : Demand) : f.serve sc d = f.allocSlot := by
  cases d <;> rfl

/-- What the offsets of slots that were handed out since `f` are: each below those before it, and
all between the sizes of the frame. -/
structure Serves (f f' : Frame) (offs : List Int64) : Prop where
  eq : f' = { f with size := f'.size }
  le : f.size.toInt ≤ f'.size.toInt
  within : ∀ off ∈ offs, -f'.size.toInt ≤ off.toInt ∧ off.toInt + 8 ≤ -f.size.toInt
  below : offs.Pairwise fun p q => q.toInt + 8 ≤ p.toInt

theorem toInt_allocSlot {f : Frame} (hword : f.word = 8) (hpos : 0 ≤ f.size.toInt)
    (hroom : f.size.toInt + 8 < 2 ^ 63) :
    f.allocSlot.1.toInt = -(f.size.toInt + 8) ∧ f.allocSlot.2.size.toInt = f.size.toInt + 8 := by
  have hbytes : f.slotBytes = 8 := by rw [slotBytes, hword]; rfl
  have hsize : (f.size + 8).toInt = f.size.toInt + 8 := by
    rw [Int64.toInt_add]
    exact Int.bmod_eq_of_le (by show _ ≤ f.size.toInt + 8; omega)
      (by show f.size.toInt + 8 < _; omega)
  show (-(f.size + f.slotBytes)).toInt = _ ∧ (f.size + f.slotBytes).toInt = _
  rw [hbytes, Int64.toInt_neg, hsize]
  exact ⟨Int.bmod_eq_of_le (by omega) (by omega), rfl⟩

theorem Serves.cons {f f' : Frame} {offs : List Int64} (hword : f.word = 8)
    (hpos : 0 ≤ f.size.toInt) (hroom : f.size.toInt + 8 < 2 ^ 63)
    (h : f.allocSlot.2.Serves f' offs) : f.Serves f' (f.allocSlot.1 :: offs) := by
  obtain ⟨hoff, hsize⟩ := toInt_allocSlot hword hpos hroom
  have hle := h.le
  refine ⟨h.eq, by omega, forall_mem_cons.mpr ⟨by omega, fun off hmem => ?_⟩,
    pairwise_cons.mpr ⟨fun off hmem => ?_, h.below⟩⟩
  · have hoff' := h.within off hmem
    omega
  · have hoff' := h.within off hmem
    omega

/-- Slots are handed out as long as their bytes can be counted by a word. -/
theorem serves_serveAll (sc : SpillCode) {f : Frame} (ds : List Demand) (hword : f.word = 8)
    (hpos : 0 ≤ f.size.toInt) (hroom : f.size.toInt + 8 * ds.length < 2 ^ 63) :
    f.Serves (f.serveAll sc ds).2 (f.serveAll sc ds).1 ∧
      (f.serveAll sc ds).2.size.toInt = f.size.toInt + 8 * ds.length := by
  induction ds generalizing f with
  | nil => exact ⟨⟨rfl, le_rfl, nofun, .nil⟩, by simp [serveAll]⟩
  | cons d ds ih =>
    rw [length_cons, Nat.cast_add, Nat.cast_one] at hroom ⊢
    have hroom₁ : f.size.toInt + 8 < 2 ^ 63 := by omega
    obtain ⟨-, hsize⟩ := toInt_allocSlot hword hpos hroom₁
    obtain ⟨hserves, hsize'⟩ := ih (f := f.allocSlot.2) hword (by omega) (by omega)
    rw [serveAll, serve_eq]
    exact ⟨hserves.cons hword hpos hroom₁, hsize'.trans (by omega)⟩

theorem length_serveAll (sc : SpillCode) (f : Frame) (ds : List Demand) :
    (f.serveAll sc ds).1.length = ds.length := by
  induction ds generalizing f with
  | nil => rfl
  | cons d ds ih =>
    rw [serveAll]
    exact congrArg (· + 1) (ih (f.serve sc d).2)

/-- The bytes of a word at an offset off the frame pointer. -/
def wordAt (f : Frame) (off : Int64) : Set Int := Set.Ico off.toInt (off.toInt + f.word.toInt)

end Frame

/-! ### Rounding up -/

theorem toNat_and_not_fifteen (b : BitVec 64) : (b &&& ~~~15#64).toNat = b.toNat / 16 * 16 := by
  have hones : ~~~15#64 ||| 15#64 = BitVec.allOnes 64 := by decide
  have hor : (b &&& ~~~15#64) ||| (b &&& 15#64) = b := by
    rw [← BitVec.and_or_distrib_left, hones, BitVec.and_allOnes]
  have hzero : (b &&& ~~~15#64) &&& (b &&& 15#64) = 0#64 := by
    rw [BitVec.and_comm b 15#64, ← BitVec.and_assoc, BitVec.and_assoc b, BitVec.and_comm (~~~15#64)]
    simp
  have hadd : (b &&& ~~~15#64) + (b &&& 15#64) = b := by
    rw [BitVec.add_eq_or_of_and_eq_zero _ _ hzero, hor]
  have hlow : (b &&& 15#64).toNat = b.toNat % 16 := by
    rw [BitVec.toNat_and]
    exact Nat.and_two_pow_sub_one_eq_mod b.toNat 4
  have hhigh : b &&& ~~~15#64 = b - (b &&& 15#64) := by rw [eq_comm, sub_eq_iff_eq_add, hadd]
  rw [hhigh, BitVec.toNat_sub_of_le, hlow]
  · omega
  · rw [BitVec.le_def, hlow]
    exact Nat.mod_le _ _

/-- The bytes that are reserved for a frame, as long as they can be counted by a word. -/
theorem Target.toInt_frameBytes {f : Frame} (hpos : 0 ≤ f.size.toInt)
    (hroom : f.size.toInt + 15 < 2 ^ 63) :
    (Target.frameBytes f).toInt = (f.size.toInt + 15) / 16 * 16 := by
  have hsum : (f.size + 15).toInt = f.size.toInt + 15 := by
    rw [Int64.toInt_add]
    exact Int.bmod_eq_of_le (by show _ ≤ f.size.toInt + 15; omega)
      (by show f.size.toInt + 15 < _; omega)
  have hnat : ((f.size + 15).toBitVec.toNat : Int) = f.size.toInt + 15 := by
    have hcond := BitVec.toInt_eq_toNat_cond (f.size + 15).toBitVec
    have hlt := (f.size + 15).toBitVec.isLt
    rw [show (f.size + 15).toBitVec.toInt = f.size.toInt + 15 from hsum] at hcond
    split at hcond <;> omega
  have hmask := toNat_and_not_fifteen (f.size + 15).toBitVec
  show ((f.size + 15).toBitVec &&& ~~~15#64).toInt = _
  rw [BitVec.toInt_eq_toNat_of_lt (by omega), hmask]
  omega

/-! ### Setting up a frame -/

namespace Target

variable {t : Target} {a : Arch} {f : Frame} {Mem : Type} {M : Memory Mem} {m : Machine Mem}

/-- The code that sets up a frame of some bytes. -/
def enterCode (t : Target) (bytes : Int64) : Code :=
  (t.dialect.enter ++ if bytes = 0 then [] else [t.dialect.reserve bytes]).map .plain

/-- The code that gives up a frame. -/
def leaveCode (t : Target) : Code := t.dialect.leave.map .plain

/-- A function that begins with its label and has another instruction is finished by code around the
rest of it. -/
theorem finish_cons_concat {x : Instr} (hx : x.label = some f.label) (rest : Code) (last : Instr) :
    t.finish f (x :: (rest ++ [last])) =
      x :: (t.enterCode (frameBytes f) ++ rest ++ t.leaveCode ++ [last]) := by
  have hstart : [x].head?.bind (·.label) = some f.label := hx
  have hfinish := finish_eq (t := t) hstart
    (append_ne_nil_of_right_ne_nil rest (cons_ne_nil last []))
  rw [dropLast_concat, getLast?_concat] at hfinish
  refine hfinish.trans ?_
  simp [setup, enterCode, leaveCode]

/-- After a frame was set up, the stack pointer stands below the frame pointer by its bytes. -/
theorem runs_enterCode (ht : t.Follows a) (bytes : Int64) :
    Runs M a t.catalog.reg? (t.enterCode bytes) m fun m' =>
      m'.regs (t.catalog.reg? a.spName) = m'.regs (some t.fp) - bytes := by
  have hne : some t.fp ≠ t.catalog.reg? a.spName := fun heq =>
    (nodup_cons.mp ht.nodup).1 (heq ▸ mem_cons_self)
  have henter : Runs M a t.catalog.reg? (a.dialect.enter.map .plain) m fun m' =>
      m'.regs (t.catalog.reg? a.spName) = m'.regs (some t.fp) := by
    refine ⟨_, readsAs_enter, ?_⟩
    rw [← ht.fp] at hne ⊢
    cases a <;> exact (Machine.regs_setReg_of_ne _ hne.symm _).trans
      (Machine.regs_setReg_self _ _ _).symm
  rw [enterCode, map_append, ht.dialect]
  refine runs_append (henter.mono fun m₁ h₁ => ?_)
  split
  · rename_i hzero
    refine runs_nil ?_
    rw [h₁, hzero, Int64.sub_zero]
  · refine runs_cons (readsAs_reserve bytes) (runs_nil ?_)
    generalize t.catalog.reg? a.spName = sp at hne h₁ ⊢
    have hsp : (exec M (.add sp (-bytes)) m₁).regs sp = m₁.regs sp + -bytes :=
      Machine.regs_setReg_self _ _ _
    have hfp : (exec M (.add sp (-bytes)) m₁).regs (some t.fp) = m₁.regs (some t.fp) :=
      Machine.regs_setReg_of_ne _ hne _
    rw [hsp, hfp, h₁, Int64.sub_eq_add_neg]

/-- The parameters on the stack are above the frame pointer, as long as their bytes can be counted
by a word. -/
theorem Framed.le_of_mem_params {n : Nat} {nested : Bool} {s s' : Supply} {rs parents : List Reg}
    (h : t.Framed f n nested s s' rs parents)
    (hroom : 16 + (n - t.regParams) * t.dialect.stackStep < 2 ^ 63) {off : Int64}
    (hoff : .offset off ∈ f.params) : 16 ≤ off.toInt := by
  rw [h.params, mem_append] at hoff
  rcases hoff with hoff | hoff
  · obtain ⟨r, -, hr⟩ := mem_map.mp hoff
    cases hr
  · obtain ⟨i, hi, hloc⟩ := mem_map.mp hoff
    cases hloc
    obtain ⟨hle, hlt⟩ := mem_range'_1.mp hi
    have hbytes : (i - t.regParams) * t.dialect.stackStep ≤
        (n - t.regParams) * t.dialect.stackStep := Nat.mul_le_mul_right _ (by omega)
    have hsum : 2 * wordBytes + Int64.ofNat (i - t.regParams) * Int64.ofNat t.dialect.stackStep =
        Int64.ofNat (16 + (i - t.regParams) * t.dialect.stackStep) := by
      rw [Int64.ofNat_add, Int64.ofNat_mul]
      rfl
    rw [hsum, Int64.toInt_ofNat_of_lt (by omega)]
    omega

/-- The layout of a frame of either machine, as long as bytes can be counted by words. However its
slots are handed out, no two of them overlap, all lie within the size of the frame below the frame
pointer, and none overlaps a parameter on the stack. A finished function reserves a multiple of
sixteen bytes that is the size or less than sixteen above it, and its code is the label, the code
that sets up the frame, the other instructions in their order, and before the last of them the code
that gives up the frame. -/
theorem frame_layout (a : Arch) (s₀ : Supply) {t : Target} (ht : t = (a.make s₀).1) (name : String)
    {n : Nat} (nested : Bool) (s : Supply) (fp : Option Reg) {size : Int64} {f f' : Frame}
    (hf : f = { (t.newFrame name n nested s).1 with fp, size })
    (hparams : 16 + (n - t.regParams) * t.dialect.stackStep < 2 ^ 63) (hpos : 0 ≤ size.toInt)
    (ds : List Demand) (hroom : size.toInt + 8 * ds.length < 2 ^ 63) {offs : List Int64}
    (hserve : f.serveAll t.dialect.spillCode ds = (offs, f')) :
    -- the slots
    (offs.length = ds.length ∧ f' = { f with size := f'.size } ∧
      f'.size.toInt = size.toInt + 8 * ds.length ∧
      offs.Pairwise (fun p q => Disjoint (f.wordAt p) (f.wordAt q)) ∧
      (∀ off ∈ offs, f.wordAt off ⊆ Set.Ico (-f'.size.toInt) 0) ∧
      ∀ off ∈ offs, ∀ p, .offset p ∈ f.params → Disjoint (f.wordAt off) (f.wordAt p)) ∧
    -- the bytes that are reserved
    (f'.size.toInt + 15 < 2 ^ 63 → 16 ∣ (frameBytes f').toInt ∧
      f'.size.toInt ≤ (frameBytes f').toInt ∧ (frameBytes f').toInt < f'.size.toInt + 16) ∧
    (∀ {Mem : Type} (M : Memory Mem) (m : Machine Mem),
      Runs M a t.catalog.reg? (t.enterCode (frameBytes f')) m fun m' =>
        m'.regs (t.catalog.reg? a.spName) = m'.regs (some t.fp) - frameBytes f') ∧
    -- the finished function
    ∀ code : Code, code.head?.bind (·.label) = some f'.label → 2 ≤ code.length →
      ∃ x rest last, code = x :: (rest ++ [last]) ∧ t.finish f' code =
        x :: (t.enterCode (frameBytes f') ++ rest ++ t.leaveCode ++ [last]) := by
  have hword : f.word = 8 := by
    rw [hf]
    cases nested <;> rfl
  have hsize : f.size = size := by rw [hf]
  obtain ⟨hserves, hsize'⟩ := Frame.serves_serveAll t.dialect.spillCode ds hword (hsize ▸ hpos)
    (hsize ▸ hroom)
  have hlen : (f.serveAll t.dialect.spillCode ds).1.length = ds.length :=
    Frame.length_serveAll _ _ _
  simp only [hserve, hsize] at hserves hsize' hlen
  have hword' : f.word.toInt = 8 := by rw [hword]; rfl
  refine ⟨⟨hlen, hserves.eq, hsize', ?_, ?_, ?_⟩, fun hbytes => ?_, fun M m => ?_,
    fun code hlabel htwo => ?_⟩
  · refine hserves.below.imp fun {p q} hbelow => ?_
    rw [Frame.wordAt, Frame.wordAt, hword', Set.Ico_disjoint_Ico]
    omega
  · intro off hoff
    obtain ⟨hlow, hhigh⟩ := hserves.within off hoff
    rw [hsize] at hhigh
    rw [Frame.wordAt, hword']
    exact Set.Ico_subset_Ico hlow (by omega)
  · intro off hoff p hp
    obtain ⟨rs, parents, hframed⟩ := t.newFrame_framed name n nested s
    rw [hf] at hp
    have habove := hframed.le_of_mem_params hparams hp
    have hwithin := hserves.within off hoff
    rw [hsize] at hwithin
    rw [Frame.wordAt, Frame.wordAt, hword', Set.Ico_disjoint_Ico]
    omega
  · rw [toInt_frameBytes (by omega) hbytes]
    omega
  · exact runs_enterCode (ht ▸ a.follows_make s₀) _
  · obtain ⟨x, y, rest, rfl⟩ : ∃ x y rest, code = x :: y :: rest := by
      match code, htwo with
      | x :: y :: rest, _ => exact ⟨x, y, rest, rfl⟩
    obtain ⟨init, last, hrest⟩ := eq_nil_or_concat (y :: rest) |>.resolve_left (by simp)
    rw [concat_eq_append] at hrest
    exact ⟨x, init, last, by rw [hrest], by rw [hrest]; exact finish_cons_concat hlabel init last⟩

/-- The case of three parameters on the stack and three slots, the second of which is for a register
that is spilled. -/
theorem frame_layout_nine :
    let t := (Arch.amd64.make {}).1
    let s := (Arch.amd64.make {}).2
    let f := (t.newFrame "inner" 9 true s).1
    let r : Option Reg := some ⟨s.pool, s.regs, ""⟩
    let code : Code := [{ text := "movq $1, &o0", writes := [r] }, { text := "ret", reads := [r] }]
    let served := f.serveAll t.dialect.spillCode [.program, .spill code r s, .program]
    served.1.Pairwise (fun p q => Disjoint (f.wordAt p) (f.wordAt q)) ∧
      (∀ off ∈ served.1, f.wordAt off ⊆ Set.Ico (-24) 0) ∧ (frameBytes served.2).toInt = 32 := by
  intro t s f r code served
  have hparams : 16 + (9 - t.regParams) * t.dialect.stackStep < 2 ^ 63 := by
    rw [show t.dialect.stackStep = 8 from rfl]
    omega
  have hf (t : Target) (s : Supply) : (t.newFrame "inner" 9 true s).1 =
      { (t.newFrame "inner" 9 true s).1 with size := 0 } := rfl
  obtain ⟨⟨-, -, hsize, hapart, hwithin, -⟩, hbytes, -, -⟩ :=
    frame_layout .amd64 {} (t := t) rfl "inner" true s f.fp (f := f) (hf t s) hparams le_rfl
      [.program, .spill code r s, .program] (by decide) (show _ = (served.1, served.2) from rfl)
  have hsize24 : served.2.size.toInt = 24 := hsize
  rw [hsize24] at hwithin hbytes
  refine ⟨hapart, hwithin, ?_⟩
  obtain ⟨hdvd, hle, hlt⟩ := hbytes (by decide)
  generalize (frameBytes served.2).toInt = bytes at hdvd hle hlt ⊢
  omega

end Target

end Codegen
