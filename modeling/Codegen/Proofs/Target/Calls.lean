import Codegen.Proofs.Assembly.Stack
import Codegen.Proofs.Selection.Sound
import Mathlib.Data.List.Zip

/-!
# Calls

Caller and callee agree on where arguments are. The caller places them in registers and on the stack
(`Target.runs_placeArgs`), the machine calls, and the callee sets up its frame and puts the arguments
where its frame says (`Framed.runs_setup`).
-/

namespace Codegen

open Assembly Assembly.Stack List

variable (t : Target)

/-! ### Registers with a part in calls -/

namespace Arch

/-- The name of the register that passes the frame pointer of a parent. -/
def linkName : Arch → String
  | .amd64 => "%r10"
  | .arm64 => "X9"

theorem params_make (a : Arch) (s : Supply) :
    (a.make s).1.catalog.params = a.paramNames.map (a.make s).1.catalog.reg? ∧
      (a.make s).1.catalog.calleeSave = a.calleeSaveNames.map (a.make s).1.catalog.reg? :=
  ⟨(describes_make a s).params, (describes_make a s).calleeSave⟩

end Arch

/-- What the target of a machine has to do with calls: its words, and the registers with a part in
them, which are different ones of the machine. -/
structure Target.Follows (t : Target) (a : Arch) : Prop where
  dialect : t.dialect = a.dialect
  fp : t.catalog.reg? a.fpName = some t.fp
  lr : t.catalog.reg? "LR" = none
  nodup : (t.catalog.reg? a.spName :: some t.fp :: (t.catalog.params ++ [some t.link])).Nodup
  machine : ∀ r ∈ t.catalog.reg? a.spName :: some t.fp ::
    (t.catalog.params ++ [some t.link] ++ t.catalog.calleeSave),
    ∃ w, r = some w ∧ t.catalog.isMachine w = true
  two_le : 2 ≤ t.regParams

namespace Arch

variable {a : Arch} {s : Supply}

theorem reg?_make_fp (a : Arch) (s : Supply) :
    (a.make s).1.catalog.reg? a.fpName = some (a.make s).1.fp :=
  reg?_make.mpr ⟨(mem_machine_fp a s).1, by cases a <;> rfl⟩

theorem reg?_make_link (a : Arch) (s : Supply) :
    (a.make s).1.catalog.reg? a.linkName = some (a.make s).1.link := by
  have hmem : a.linkName ∈ a.regNames ++ a.pointerNames := by cases a <;> decide +kernel
  obtain ⟨r, hr⟩ := exists_reg?_make a s hmem
  have hlink : (a.make s).1.link = ((a.make s).1.catalog.reg? a.linkName).getD (a.make s).1.fp := by
    cases a <;> rfl
  rw [hlink, hr]
  rfl

/-- Different names are those of different registers. -/
theorem nodup_map_reg?_make {names : List String} (hn : names.Nodup)
    (hs : ∀ n ∈ names, n ∈ a.regNames ++ a.pointerNames) :
    (names.map (a.make s).1.catalog.reg?).Nodup := by
  refine hn.map_on fun n h n' h' heq => ?_
  obtain ⟨r, hr⟩ := exists_reg?_make a s (hs n h)
  exact (reg?_make.mp hr).2.symm.trans (reg?_make.mp (heq ▸ hr)).2

theorem follows_make (a : Arch) (s : Supply) : (a.make s).1.Follows a := by
  obtain ⟨hparams, hsave⟩ := params_make a s
  have hfp := reg?_make_fp a s
  have hlink := reg?_make_link a s
  refine ⟨dialect_make a s, hfp, ?_, ?_, ?_, ?_⟩
  · by_contra h
    obtain ⟨r, hr⟩ := Option.ne_none_iff_exists'.mp h
    have hname := mem_map_of_mem (f := Reg.name) (reg?_make.mp hr).1
    rw [(reg?_make.mp hr).2, machine_make, Supply.map_name_namedRegs] at hname
    exact absurd hname (by cases a <;> decide +kernel)
  · have h : ((a.spName :: a.fpName :: (a.paramNames ++ [a.linkName])).map
        (a.make s).1.catalog.reg?).Nodup :=
      nodup_map_reg?_make (by cases a <;> decide +kernel) (by cases a <;> decide +kernel)
    rw [map_cons, map_cons, map_append, map_singleton, hfp, hlink] at h
    rwa [hparams]
  · have hall : ∀ n ∈ a.spName :: a.fpName :: (a.paramNames ++ [a.linkName] ++ a.calleeSaveNames),
        n ∈ a.regNames ++ a.pointerNames := by cases a <;> decide +kernel
    rw [hparams, hsave, ← hfp, ← hlink, ← map_singleton, ← map_append, ← map_append,
      ← map_cons, ← map_cons]
    intro r hr
    obtain ⟨n, hn, rfl⟩ := mem_map.mp hr
    obtain ⟨w, hw⟩ := exists_reg?_make a s (hall n hn)
    exact ⟨w, hw, Catalog.isMachine_of_reg?_eq_some hw⟩
  · rw [Target.regParams, hparams, length_map]
    cases a <;> decide +kernel

end Arch

namespace Target

variable {t : Target} {a : Arch} {args : List (Option Reg)} {link : Option Reg}
  {Mem : Type} {M : Memory Mem} {m : Machine Mem} {Q : Machine Mem → Prop}

/-- The register is there and none of the machine. -/
def Virtual (t : Target) (r : Option Reg) : Prop :=
  ∃ w, r = some w ∧ t.catalog.isMachine w = false

theorem Virtual.ne {r q : Option Reg} (h : t.Virtual r)
    (hq : ∃ w, q = some w ∧ t.catalog.isMachine w = true) : r ≠ q := by
  obtain ⟨w, rfl, hw⟩ := h
  obtain ⟨v, rfl, hv⟩ := hq
  rintro ⟨⟩
  rw [hw] at hv
  cases hv

/-! ### The caller -/

/-- The stack grows by as many places as arguments take, and by one more if that keeps it
aligned. -/
theorem runs_pad (ht : t.Follows a) (n : Nat)
    (hQ : ∀ m' : Machine Mem, m'.regs (t.catalog.reg? a.spName) = m.regs (t.catalog.reg? a.spName) -
        Int64.ofNat (t.stackPlaces n - n) * Int64.ofNat t.dialect.stackStep →
      (∀ r, r ≠ t.catalog.reg? a.spName → m'.regs r = m.regs r) → Q m') :
    Runs M a t.catalog.reg? (if n % 2 = 0 then [] else t.dialect.pad.toList.map Instr.plain) m Q := by
  have hkeep (h : t.stackPlaces n - n = 0) : Q m := by
    refine hQ m ?_ fun _ _ => rfl
    rw [h, show Int64.ofNat 0 = 0 from rfl]
    grind
  rw [stackPlaces] at hQ hkeep
  split
  · rename_i heven
    refine runs_nil (hkeep ?_)
    split <;> omega
  · rename_i hodd
    cases hpad : t.dialect.pad with
    | none =>
      rw [hpad] at hkeep
      exact runs_nil (hkeep (Nat.sub_self n))
    | some text =>
      have hone : n + n % 2 - n = 1 := by omega
      rw [hpad, Option.isSome_some, if_pos rfl, hone, show Int64.ofNat 1 = 1 from rfl] at hQ
      rw [ht.dialect] at hpad hQ
      refine runs_cons (readsAs_pad hpad) (runs_nil (hQ _ ?_ fun r hr => ?_))
      · refine (Machine.regs_setReg_self _ _ _).trans ?_
        grind
      · exact m.regs_setReg_of_ne hr _

/-- Which register goes where: arguments to the registers that pass them, and the link. -/
def transfers (t : Target) (args : List (Option Reg)) (link : Option Reg) :
    List (Option Reg × Option Reg) :=
  t.catalog.params.zip args ++ (if link.isSome then [(some t.link, link)] else [])

theorem placeArgs_eq (args : List (Option Reg)) (link : Option Reg) :
    t.placeArgs args link =
      (let stack := args.drop t.regParams
       (if stack.length % 2 = 0 then [] else t.dialect.pad.toList.map Instr.plain) ++
          (stack.reverse.map fun r => { text := t.dialect.push, reads := [r] }) ++
          (t.transfers args link).map (fun p => t.dialect.move p.1 p.2),
        (t.transfers args link).map (·.1)) := by
  have hzip {β : Type} (g : Option Reg × Option Reg → β) : (args.zip t.catalog.params).map g =
      (t.catalog.params.zip args).map fun p => g p.swap := by
    rw [← zip_swap, map_map]
    rfl
  unfold placeArgs transfers
  dsimp only
  rw [hzip, hzip]
  cases link <;> simp

/-- The arguments and the link are placed for a call. -/
structure Placed (t : Target) (a : Arch) (M : Memory Mem) (args : List (Option Reg))
    (link : Option Reg) (m m' : Machine Mem) : Prop where
  sp : m'.regs (t.catalog.reg? a.spName) = m.regs (t.catalog.reg? a.spName) -
    Int64.ofNat (t.stackPlaces (args.length - t.regParams) * t.dialect.stackStep)
  transferred : ∀ p ∈ t.transfers args link, m'.regs p.1 = m.regs p.2
  pushed : ∀ j r, args[t.regParams + j]? = some r →
    M.load m'.mem (m'.regs (t.catalog.reg? a.spName) +
      Int64.ofNat j * Int64.ofNat t.dialect.stackStep) = m.regs r

theorem stackPlaces_bounds (n : Nat) : n ≤ t.stackPlaces n ∧ t.stackPlaces n ≤ n + 1 := by
  unfold stackPlaces
  split <;> omega

/-- The registers that arguments go to are those with a part in calls. -/
theorem transfers_sublist (args : List (Option Reg)) (link : Option Reg) :
    ((t.transfers args link).map (·.1)).Sublist (t.catalog.params ++ [some t.link]) := by
  rw [transfers, map_append]
  refine List.Sublist.append ?_ ?_
  · rw [zip_eq_zip_take_min, map_fst_zip (by simp)]
    exact take_sublist _ _
  · split
    · exact .refl _
    · exact nil_sublist _

theorem runs_placeArgs (ht : t.Follows a) (hargs : ∀ r ∈ args, t.Virtual r)
    (hlink : link.isSome = true → t.Virtual link)
    (hroom : args.length * t.dialect.stackStep < 2 ^ 63)
    (hQ : ∀ m', t.Placed a M args link m m' → Q m') :
    Runs M a t.catalog.reg? (t.placeArgs args link).1 m Q := by
  have hlen : (args.drop t.regParams).length = args.length - t.regParams := length_drop
  have hsp := ht.machine _ mem_cons_self
  have hdst := t.transfers_sublist args link
  have hnodup := (nodup_cons.mp ht.nodup)
  have hsrc : ∀ p ∈ t.transfers args link, t.Virtual p.2 := by
    rw [transfers, forall_mem_append]
    refine ⟨fun p hp => hargs _ (of_mem_zip hp).2, ?_⟩
    split
    · rename_i h
      exact forall_mem_singleton.mpr (hlink h)
    · exact nofun
  have hmachine : ∀ r ∈ (t.transfers args link).map (·.1), ∃ w, r = some w ∧
      t.catalog.isMachine w = true := fun r hr => ht.machine r (mem_cons_of_mem _
    (mem_cons_of_mem _ (mem_append_left _ (hdst.subset hr))))
  rw [placeArgs_eq, append_assoc]
  refine runs_append (runs_pad ht _ fun m₁ hsp₁ hregs₁ => runs_append ?_)
  rw [ht.dialect] at hroom hsp₁ ⊢
  refine runs_pushes (fun r hr => (hargs r (mem_of_mem_drop hr)).ne hsp) ?_ fun m₂ h₂ => ?_
  · refine lt_of_le_of_lt (Nat.mul_le_mul_right _ ?_) hroom
    omega
  · refine runs_moves (hdst.nodup (nodup_cons.mp hnodup.2).2)
      (fun p hp h => (hsrc p hp).ne (hmachine _ h) rfl) fun m₃ hmem₃ hnew₃ hold₃ => hQ m₃ ?_
    have hsp₃ : m₃.regs (t.catalog.reg? a.spName) = m₂.regs (t.catalog.reg? a.spName) :=
      hold₃ _ fun h => hnodup.1 (mem_cons_of_mem _ (hdst.subset h))
    refine ⟨?_, fun p hp => ?_, fun j r hr => ?_⟩
    · have hplaces := t.stackPlaces_bounds (args.length - t.regParams)
      rw [hsp₃, h₂.sp, hsp₁, hlen, ht.dialect, ← Nat.sub_add_cancel hplaces.1, Int64.ofNat_mul,
        Int64.ofNat_add, Nat.add_sub_cancel]
      grind
    · have hne := (hsrc p hp).ne hsp
      rw [hnew₃ p hp, h₂.regs _ hne, hregs₁ _ hne]
    · have hne := (hargs r (mem_of_getElem? hr)).ne hsp
      rw [hsp₃, hmem₃, ht.dialect, ← hregs₁ _ hne]
      exact h₂.words j r (by rwa [getElem?_drop])

/-- The stack stays aligned. -/
theorem stackPlaces_mul_mod (ht : t.Follows a) (n : Nat) :
    t.stackPlaces n * t.dialect.stackStep % 16 = 0 := by
  rw [stackPlaces, ht.dialect]
  cases a
  case amd64 =>
    show (n + n % 2) * 8 % 16 = 0
    omega
  case arm64 =>
    show n * 16 % 16 = 0
    omega

theorem toInt_sub_ofNat_mod {x : Int64} {n : Nat} (hx : x.toInt % 16 = 0) (hn : n % 16 = 0) :
    (x - Int64.ofNat n).toInt % 16 = 0 := by
  rw [Int64.toInt_sub, Int64.toInt_ofNat', Int.sub_bmod_bmod, Int.bmod_def,
    show Int64.size = 2 ^ 64 from rfl]
  split <;> omega

theorem Placed.aligned {m' : Machine Mem} (h : t.Placed a M args link m m') (ht : t.Follows a)
    (hm : (m.regs (t.catalog.reg? a.spName)).toInt % 16 = 0) :
    (m'.regs (t.catalog.reg? a.spName)).toInt % 16 = 0 := by
  rw [h.sp]
  exact toInt_sub_ofNat_mod hm (stackPlaces_mul_mod ht _)

theorem runs_removeArgs (ht : t.Follows a) (hroom : args.length * t.dialect.stackStep < 2 ^ 63)
    (hQ : ∀ m' : Machine Mem, m'.regs (t.catalog.reg? a.spName) = m.regs (t.catalog.reg? a.spName) +
      Int64.ofNat (t.stackPlaces (args.length - t.regParams) * t.dialect.stackStep) → Q m') :
    Runs M a t.catalog.reg? (t.removeArgs args) m Q := by
  unfold removeArgs
  dsimp only
  split
  · rename_i h
    have hzero : t.stackPlaces 0 * t.dialect.stackStep = 0 := by simp [stackPlaces]
    refine runs_nil (hQ m ?_)
    rw [h, hzero, show Int64.ofNat 0 = 0 from rfl]
    grind
  · rename_i h
    have hplaces := t.stackPlaces_bounds (args.length - t.regParams)
    have htwo := ht.two_le
    have hbound : t.stackPlaces (args.length - t.regParams) * t.dialect.stackStep < 2 ^ 63 :=
      lt_of_le_of_lt (Nat.mul_le_mul_right _ (by omega)) hroom
    rw [ht.dialect] at hbound hQ ⊢
    exact runs_cons (readsAs_drop hbound) (runs_nil (hQ _ (Machine.regs_setReg_self _ _ _)))

/-! ### The callee -/

/-- The first parameters are in registers, the others above the frame pointer. -/
theorem paramLocs_eq (i n : Nat) (s : Supply) : ∃ rs : List Reg,
    (t.paramLocs i n s).1 = rs.map .reg ++
        (List.range' (max i t.regParams) (i + n - max i t.regParams)).map t.stackParam ∧
      rs.length = min n (t.regParams - i) ∧ s.HandsOut (t.paramLocs i n s).2 rs := by
  induction n generalizing i s with
  | zero =>
    refine ⟨[], ?_, by simp, (Supply.Grows.refl s).handsOut⟩
    rw [show i + 0 - max i t.regParams = 0 by omega]
    rfl
  | succ n ih =>
    rw [paramLocs]
    split
    · rename_i hi
      obtain ⟨rs, h1, h2, h3⟩ := ih (i + 1) s.freshReg.2
      refine ⟨s.freshReg.1 :: rs, ?_, ?_, s.handsOut_freshReg.append h3⟩
      · show Loc.reg _ :: (t.paramLocs (i + 1) n s.freshReg.2).1 = _
        rw [h1, show max (i + 1) t.regParams = max i t.regParams by omega,
          show i + 1 + n = i + (n + 1) by omega]
        rfl
      · rw [length_cons, h2]
        omega
    · rename_i hi
      obtain ⟨rs, h1, h2, h3⟩ := ih (i + 1) s
      obtain rfl : rs = [] := eq_nil_of_length_eq_zero (by omega)
      refine ⟨[], ?_, by simp; omega, h3⟩
      show t.stackParam i :: (t.paramLocs (i + 1) n s).1 = _
      rw [h1, show max (i + 1) t.regParams = i + 1 by omega, show max i t.regParams = i by omega,
        show i + 1 + n - (i + 1) = n by omega, show i + (n + 1) - i = n + 1 by omega]
      rfl

/-- A frame as it is made for a function: `rs` are the registers of parameters, and `parents` has
the one of the link. -/
structure Framed (t : Target) (f : Frame) (n : Nat) (nested : Bool) (s s' : Supply)
    (rs parents : List Reg) : Prop where
  params : f.params = rs.map .reg ++
    (List.range' t.regParams (n - t.regParams)).map t.stackParam
  length : rs.length = min n t.regParams
  parent : f.parent = (parents.map Loc.reg).head?
  nested : parents.length = if nested then 1 else 0
  fp : f.fp = some t.fp
  handsOut : s.HandsOut s' (rs ++ parents)

theorem newFrame_framed (name : String) (n : Nat) (nested : Bool) (s : Supply) :
    ∃ rs parents, t.Framed (t.newFrame name n nested s).1 n nested s (t.newFrame name n nested s).2
      rs parents := by
  obtain ⟨rs, h1, h2, h3⟩ := t.paramLocs_eq 0 n (s.namedLabel name).2
  rw [Nat.zero_add, Nat.max_eq_right (Nat.zero_le _)] at h1
  have hgrows : s.Grows (s.namedLabel name).2 := ⟨rfl, Nat.le_refl _⟩
  have hrs := hgrows.handsOut.append h3
  cases nested with
  | false =>
    refine ⟨rs, [], h1, h2, rfl, rfl, rfl, ?_⟩
    rw [append_nil]
    exact hrs
  | true => exact ⟨rs, [_], h1, h2, rfl, rfl, rfl, hrs.append (Supply.handsOut_freshReg _)⟩

theorem saveRegs_eq (cs : List (Option Reg)) (s : Supply) : ∃ ws : List Reg,
    (t.saveRegs cs s).1 = ((ws.map some).zip cs).map (fun p => t.dialect.move p.1 p.2) ∧
      (t.saveRegs cs s).2.1 = ws.map some ∧ ws.length = cs.length ∧
      s.HandsOut (t.saveRegs cs s).2.2 ws := by
  induction cs generalizing s with
  | nil => exact ⟨[], rfl, rfl, rfl, (Supply.Grows.refl s).handsOut⟩
  | cons c cs ih =>
    obtain ⟨ws, h1, h2, h3, h4⟩ := ih s.freshReg.2
    refine ⟨s.freshReg.1 :: ws, ?_, ?_, congrArg (· + 1) h3, s.handsOut_freshReg.append h4⟩
    · show t.dialect.move _ _ :: (t.saveRegs cs s.freshReg.2).1 = _
      rw [h1]
      rfl
    · show some _ :: (t.saveRegs cs s.freshReg.2).2.1 = _
      rw [h2]
      rfl

/-- Which register goes where at the begin of a function: parameters and the link to the registers
of the frame, and those that the function keeps to `ws`. -/
def receipts (t : Target) (rs parents ws : List Reg) : List (Option Reg × Option Reg) :=
  (rs.map some).zip t.catalog.params ++ parents.map (fun r => (some r, some t.link)) ++
    (ws.map some).zip t.catalog.calleeSave

variable {f : Frame} {n : Nat} {nested : Bool} {s s' : Supply} {rs parents : List Reg}

theorem Framed.prologue_eq (h : t.Framed f n nested s s' rs parents) (s₁ : Supply) :
    ∃ ws : List Reg, (t.prologue f s₁).1 =
        .place f.label :: (t.receipts rs parents ws).map (fun p => t.dialect.move p.1 p.2) ∧
      ws.length = t.catalog.calleeSave.length ∧ s₁.HandsOut (t.prologue f s₁).2.2 ws := by
  obtain ⟨ws, h1, -, h2, h3⟩ := t.saveRegs_eq t.catalog.calleeSave s₁
  refine ⟨ws, ?_, h2, h3⟩
  have hzip : f.params.zip t.catalog.params = (rs.map Loc.reg).zip t.catalog.params := by
    rw [h.params]
    by_cases hn : n ≤ t.regParams
    · rw [Nat.sub_eq_zero_of_le hn]
      exact congrArg (List.zip · _) (append_nil _)
    · have hlen : (rs.map Loc.reg).length = t.catalog.params.length := by
        rw [length_map, h.length]
        exact Nat.min_eq_right (Nat.le_of_not_le hn)
      have happ (ls : List Loc) : (rs.map Loc.reg ++ ls).zip (t.catalog.params ++ []) = _ :=
        zip_append hlen
      rw [← append_nil t.catalog.params, happ, zip_nil_right, append_nil,
        append_nil]
  have hparams : (f.params.zip t.catalog.params).map
        (fun p => t.dialect.storeLoc f.fp p.2 p.1) =
      ((rs.map some).zip t.catalog.params).map (fun p => t.dialect.move p.1 p.2) := by
    rw [hzip, zip_map_left, zip_map_left, map_map, map_map]
    rfl
  have hparent : f.parent.toList.map (t.dialect.storeLoc f.fp (some t.link)) =
      (parents.map fun r => (some r, some t.link)).map (fun p => t.dialect.move p.1 p.2) := by
    rw [h.parent]
    have hlen := h.nested
    match parents, hlen with
    | [], _ => rfl
    | [r], _ => rfl
    | _ :: _ :: _, hlen => cases nested <;> simp at hlen
  show Instr.place f.label :: _ ++ _ ++ (t.saveRegs t.catalog.calleeSave s₁).1 = _
  rw [h1, receipts, map_append, map_append, ← hparams, ← hparent]
  rfl

theorem receipts_fst {ws : List Reg} (hrs : rs.length ≤ t.regParams)
    (hws : ws.length = t.catalog.calleeSave.length) :
    (t.receipts rs parents ws).map (·.1) = (rs ++ parents ++ ws).map some := by
  have hrs' : (rs.map some).length ≤ t.catalog.params.length := by rwa [length_map]
  have hws' : (ws.map some).length ≤ t.catalog.calleeSave.length := by rw [length_map, hws]
  rw [receipts, map_append, map_append, map_fst_zip hrs', map_fst_zip hws',
    map_append, map_append, map_map]
  rfl

/-- What is passed comes in the registers with a part in calls. -/
theorem snd_mem_of_mem_passed {p : Option Reg × Option Reg}
    (hp : p ∈ (rs.map some).zip t.catalog.params ++ parents.map (fun r => (some r, some t.link))) :
    p.2 ∈ t.catalog.params ++ [some t.link] := by
  obtain hp | hp := mem_append.mp hp
  · exact mem_append_left _ (of_mem_zip hp).2
  · obtain ⟨r, -, rfl⟩ := mem_map.mp hp
    exact mem_append_right _ mem_cons_self

theorem snd_mem_of_mem_receipts {ws : List Reg} {p : Option Reg × Option Reg}
    (hp : p ∈ t.receipts rs parents ws) :
    p.2 ∈ t.catalog.params ++ [some t.link] ++ t.catalog.calleeSave := by
  obtain hp | hp := mem_append.mp hp
  · exact mem_append_left _ (snd_mem_of_mem_passed hp)
  · exact mem_append_right _ (of_mem_zip hp).2

/-- The begin of a function whose frame is set up. -/
def setup (t : Target) (f : Frame) (start : Code) : Code :=
  start.take 1 ++ (t.dialect.enter ++
    (if frameBytes f = 0 then [] else [t.dialect.reserve (frameBytes f)])).map Instr.plain ++
    start.drop 1

theorem finish_eq {start rest : Code} (hstart : start.head?.bind (·.label) = some f.label)
    (hrest : rest ≠ []) : t.finish f (start ++ rest) = t.setup f start ++
      (rest.dropLast ++ t.dialect.leave.map Instr.plain ++ rest.getLast?.toList) := by
  cases start with
  | nil => cases hstart
  | cons x start =>
    have hx : (((x :: start) ++ rest).head?.bind (·.label) == some f.label) = true :=
      beq_iff_eq.mpr hstart
    have hlast : (start ++ rest).getLast? = rest.getLast? := by
      rw [getLast?_append_of_ne_nil _ hrest]
    have hinit : (start ++ rest).dropLast = start ++ rest.dropLast :=
      dropLast_append_of_ne_nil hrest
    unfold finish setup
    rw [hx]
    show _ ++ _ ++ (start ++ rest).dropLast ++ _ ++ (start ++ rest).getLast?.toList = _
    rw [hlast, hinit]
    simp only [append_assoc]
    rfl

/-- Reserving bytes changes the stack pointer only. -/
theorem runs_reserve (ht : t.Follows a) (v : Int64)
    (hQ : ∀ m' : Machine Mem, m'.mem = m.mem →
      (∀ r, r ≠ t.catalog.reg? a.spName → m'.regs r = m.regs r) → Q m') :
    Runs M a t.catalog.reg? ((if v = 0 then [] else [t.dialect.reserve v]).map Instr.plain) m Q := by
  split
  · exact runs_nil (hQ m rfl fun _ _ => rfl)
  · rw [ht.dialect]
    exact runs_cons (readsAs_reserve v) (runs_nil (hQ _ rfl fun r hr => m.regs_setReg_of_ne hr _))

/-- After the frame is set up, the frame pointer stands two words below the arguments on the stack,
and the registers of the frame hold the other ones and the link. -/
theorem Framed.runs_setup (h : t.Framed f n nested s s' rs parents) (ht : t.Follows a)
    (hfresh : ∀ s'' r, s.Made s'' r → t.catalog.isMachine r = false) {s₁ : Supply}
    (hs : s'.Grows s₁) (f' : Frame) (ret : Int64)
    (hQ : ∀ m' : Machine Mem, m'.regs (some t.fp) = m.regs (t.catalog.reg? a.spName) - 16 →
      (∀ n : Nat, n + 16 < 2 ^ 63 →
        M.load m'.mem (m.regs (t.catalog.reg? a.spName) + Int64.ofNat n) =
          M.load m.mem (m.regs (t.catalog.reg? a.spName) + Int64.ofNat n)) →
      (∀ p ∈ (rs.map some).zip t.catalog.params ++ parents.map (fun r => (some r, some t.link)),
        m'.regs p.1 = m.regs p.2) → Q m') :
    Runs M a t.catalog.reg? (t.setup f' (t.prologue f s₁).1) (call M a t.catalog.reg? ret m) Q := by
  obtain ⟨ws, hcode, hlen, hws⟩ := h.prologue_eq s₁
  have hfst : (t.receipts rs parents ws).map (·.1) = (rs ++ parents ++ ws).map some :=
    receipts_fst (h.length ▸ Nat.min_le_right n _) hlen
  have hout := (h.handsOut.append hs.handsOut).append hws
  rw [append_nil] at hout
  have hvirtual : ∀ r ∈ (t.receipts rs parents ws).map (·.1), t.Virtual r := by
    rw [hfst]
    intro r hr
    obtain ⟨w, hw, rfl⟩ := mem_map.mp hr
    exact ⟨w, rfl, hfresh _ w (hout.made w hw)⟩
  have hmachine (r : Option Reg) (hr : r ∈ t.catalog.params ++ [some t.link] ++ t.catalog.calleeSave) :=
    ht.machine r (mem_cons_of_mem _ (mem_cons_of_mem _ hr))
  have hnodup : ((t.receipts rs parents ws).map (·.1)).Nodup := by
    rw [hfst]
    exact hout.nodup.map (Option.some_injective _)
  have hlr : t.catalog.reg? "LR" ≠ t.catalog.reg? a.spName := by
    obtain ⟨w, hw, -⟩ := ht.machine _ mem_cons_self
    rw [ht.lr, hw]
    exact nofun
  have hdistinct := nodup_cons.mp ht.nodup
  have hne : some t.fp ≠ t.catalog.reg? a.spName := fun heq =>
    hdistinct.1 (heq ▸ mem_cons_self)
  rw [hcode, setup, map_append]
  refine runs_append (runs_append (runs_cons (readsAs_place _) (runs_nil (runs_append ?_))))
  rw [ht.dialect]
  refine runs_enter ret hlr fun m₁ hfp₁ hold₁ hload₁ => ?_
  rw [← ht.dialect]
  refine runs_reserve ht _ fun m₂ hmem₂ hold₂ => ?_
  rw [ht.dialect]
  refine runs_moves hnodup (fun p hp hmem => (hvirtual _ hmem).ne (hmachine _ (snd_mem_of_mem_receipts hp)) rfl)
    fun m₃ hmem₃ hnew₃ hold₃ => hQ m₃ ?_ (fun k hk => ?_) fun p hp => ?_
  · have hfp := ht.machine (some t.fp) (mem_cons_of_mem _ mem_cons_self)
    rw [ht.fp] at hfp₁
    rw [hold₃ _ fun hmem => (hvirtual _ hmem).ne hfp rfl, hold₂ _ hne, hfp₁]
  · rw [hmem₃, hmem₂, hload₁ k hk]
  · have hpart := snd_mem_of_mem_passed hp
    obtain ⟨w, hw, -⟩ := hmachine _ (mem_append_left _ hpart)
    have hsp : p.2 ≠ t.catalog.reg? a.spName := fun heq =>
      hdistinct.1 (mem_cons_of_mem _ (heq ▸ hpart))
    have hfp : p.2 ≠ t.catalog.reg? a.fpName := fun heq =>
      (nodup_cons.mp hdistinct.2).1 (ht.fp ▸ heq ▸ hpart)
    rw [hnew₃ p (mem_append_left _ hp), hold₂ _ hsp, hold₁ _ hsp hfp (by rw [ht.lr, hw]; exact nofun)]

end Target

/-! ### The call instruction -/

namespace Arch

open Selection

/-- The word of the assembler that calls. -/
def callWord : Arch → String
  | .amd64 => "call"
  | .arm64 => "BL"

/-- Whether a skeleton calls. -/
def calls (a : Arch) (s : Skeleton) : Bool :=
  s.isCall && !(Piece.scan s.text).any Piece.makesValue &&
    match (Piece.scan s.text).head? with
    | some (.text cs) => a.callWord.toList.isPrefixOf cs
    | _ => false

theorem calls_of_mem {a : Arch} {src : TemplateSource} (h : src ∈ a.sources)
    (hcall : src.pattern.head = .call) : ∃ s rest, src.skeletons = s :: rest ∧ a.calls s = true := by
  have hall : ∀ src ∈ a.sources, src.pattern.head = .call →
      src.skeletons.head?.any a.calls = true := by
    cases a <;> decide +kernel
  have hhead := hall src h hcall
  match hsk : src.skeletons with
  | [] =>
    rw [hsk] at hhead
    cases hhead
  | s :: rest =>
    rw [hsk] at hhead
    exact ⟨s, rest, rfl, hhead⟩

/-- The first recipe of a template for calls. -/
theorem exists_call_recipe {a : Arch} {s : Supply} {x : Node} {t : Template} {b : Binding}
    (h : (a.make s).1.catalog.find? x = some (t, b)) (hx : x.head = .call) :
    ∃ r rest q parts, t.recipes = r :: rest ∧ r.isCall = true ∧ r.makesValue = false ∧
      r.parts = .text q :: parts ∧ a.callWord.toList <+: q.toList := by
  obtain ⟨ht, hhead, -⟩ := Catalog.of_find? h
  obtain ⟨src, hsrc, hmake⟩ := exists_source ht
  obtain ⟨-, recipes, hrecipes, rfl⟩ := Template.make_eq_ok_iff.mp hmake
  obtain ⟨sk, rest, hsk, hcalls⟩ := calls_of_mem hsrc (hhead.trans hx)
  rw [hsk] at hrecipes
  obtain ⟨r, recipes, hr, -, rfl⟩ := forall₂_cons_left_iff.mp hrecipes
  simp only [calls, Bool.and_eq_true, Bool.not_eq_true'] at hcalls
  obtain ⟨⟨hisCall, hvalue⟩, htext⟩ := hcalls
  have hmakes := Recipe.makesValue_ofSkeleton hr
  obtain ⟨parts, uses, defs, hparts, -, -, rfl⟩ := Recipe.ofSkeleton_eq_ok_iff.mp hr
  rw [mapM_eq_ok_iff] at hparts
  split at htext
  · rename_i cs hscan
    obtain ⟨pieces, hpieces⟩ := head?_eq_some_iff.mp hscan
    rw [hpieces] at hparts
    obtain ⟨p, parts, hp, -, rfl⟩ := forall₂_cons_left_iff.mp hparts
    cases hp
    refine ⟨_, recipes, String.ofList cs, parts, rfl, hisCall, hmakes.trans hvalue, rfl, ?_⟩
    rw [String.toList_ofList]
    exact isPrefixOf_iff_prefix.mp htext
  · cases htext

end Arch

/-! ### Caller and callee -/

/-- The word at a place. -/
def Loc.value {Mem : Type} (M : Memory Mem) (fp : Option Reg) (m : Machine Mem) : Loc → Int64
  | reg r => m.regs (some r)
  | offset off => M.load m.mem (m.regs fp + off)

namespace Target

variable {t : Target} {a : Arch} {args : List (Option Reg)} {link : Option Reg}
  {Mem : Type} {M : Memory Mem} {m m₁ m₂ : Machine Mem} {f : Frame} {nested : Bool}
  {s s' : Supply} {rs parents : List Reg}

/-- The places of a frame hold what was passed. -/
structure Received (M : Memory Mem) (f : Frame) (nested : Bool) (args : List (Option Reg))
    (link : Option Reg) (m m₂ : Machine Mem) : Prop where
  params : ∀ (i : Nat) (r : Option Reg), args[i]? = some r →
    ∃ loc : Loc, f.params[i]? = some loc ∧ loc.value M f.fp m₂ = m.regs r
  parent : nested = true → ∀ l, link = some l →
    ∃ loc : Loc, f.parent = some loc ∧ loc.value M f.fp m₂ = m.regs (some l)

/-- An argument in a register is in the place for it. -/
theorem Framed.param_inReg (h : t.Framed f args.length nested s s' rs parents)
    (hplaced : t.Placed a M args link m m₁)
    (hregs : ∀ p ∈ (rs.map some).zip t.catalog.params, m₂.regs p.1 = m₁.regs p.2) {i : Nat}
    {r : Option Reg} (hr : args[i]? = some r) (hi : i < t.regParams) :
    ∃ loc : Loc, f.params[i]? = some loc ∧ loc.value M f.fp m₂ = m.regs r := by
  have hlen := h.length
  have hlt := (List.getElem?_eq_some_iff.mp hr).1
  obtain ⟨w, hw⟩ : ∃ w, rs[i]? = some w := ⟨_, getElem?_eq_getElem (by omega)⟩
  obtain ⟨p, hp⟩ : ∃ p, t.catalog.params[i]? = some p := ⟨_, getElem?_eq_getElem hi⟩
  have hw' : (rs.map some)[i]? = some (some w) := by rw [getElem?_map, hw]; rfl
  have hin : (some w, p) ∈ (rs.map some).zip t.catalog.params :=
    mem_of_getElem? (getElem?_zip_eq_some.mpr ⟨hw', hp⟩)
  have hout : (p, r) ∈ t.transfers args link :=
    mem_append_left _ (mem_of_getElem? (getElem?_zip_eq_some.mpr ⟨hp, hr⟩))
  refine ⟨.reg w, ?_, (hregs _ hin).trans (hplaced.transferred _ hout)⟩
  rw [h.params, getElem?_append_left (by rw [length_map]; omega), getElem?_map, hw]
  rfl

/-- An argument on the stack is in the place for it, which the frame pointer stands below. -/
theorem Framed.param_onStack (h : t.Framed f args.length nested s s' rs parents) (ht : t.Follows a)
    (hroom : args.length * t.dialect.stackStep < 2 ^ 63) (hplaced : t.Placed a M args link m m₁)
    (hfp : m₂.regs (some t.fp) = m₁.regs (t.catalog.reg? a.spName) - 16)
    (hload : ∀ n : Nat, n + 16 < 2 ^ 63 →
      M.load m₂.mem (m₁.regs (t.catalog.reg? a.spName) + Int64.ofNat n) =
        M.load m₁.mem (m₁.regs (t.catalog.reg? a.spName) + Int64.ofNat n)) {i : Nat}
    {r : Option Reg} (hr : args[i]? = some r) (hi : t.regParams ≤ i) :
    ∃ loc : Loc, f.params[i]? = some loc ∧ loc.value M f.fp m₂ = m.regs r := by
  have hlen := h.length
  have hlt := (List.getElem?_eq_some_iff.mp hr).1
  obtain ⟨j, rfl⟩ := Nat.exists_eq_add_of_le hi
  have hrs : (rs.map Loc.reg).length = t.regParams := by rw [length_map]; omega
  refine ⟨t.stackParam (t.regParams + j), ?_, ?_⟩
  · rw [h.params, getElem?_append_right (by omega), hrs, Nat.add_sub_cancel_left,
      getElem?_map, getElem?_range' (by omega), Nat.one_mul]
    rfl
  · have hstep : 8 ≤ t.dialect.stackStep := ht.dialect ▸ le_stackStep a
    have htwo := ht.two_le
    have hbound : (j + 2) * t.dialect.stackStep ≤ args.length * t.dialect.stackStep :=
      Nat.mul_le_mul_right _ (by omega)
    have haddr : m₂.regs f.fp + (2 * wordBytes + Int64.ofNat (t.regParams + j - t.regParams) *
        Int64.ofNat t.dialect.stackStep) = m₁.regs (t.catalog.reg? a.spName) +
          Int64.ofNat (j * t.dialect.stackStep) := by
      rw [h.fp, hfp, Nat.add_sub_cancel_left, Int64.ofNat_mul, show 2 * wordBytes = 16 from rfl]
      grind
    show M.load m₂.mem (m₂.regs f.fp + _) = _
    rw [haddr, hload _ (by rw [Nat.add_mul] at hbound; omega), Int64.ofNat_mul]
    exact hplaced.pushed j r hr

/-- A link is in the place for it. -/
theorem Framed.parent_received (h : t.Framed f args.length true s s' rs parents) {l : Reg}
    (hplaced : t.Placed a M args (some l) m m₁)
    (hregs : ∀ r ∈ parents, m₂.regs (some r) = m₁.regs (some t.link)) :
    ∃ loc : Loc, f.parent = some loc ∧ loc.value M f.fp m₂ = m.regs (some l) := by
  obtain ⟨r, rfl⟩ := length_eq_one_iff.mp h.nested
  refine ⟨.reg r, h.parent, (hregs r mem_cons_self).trans ?_⟩
  exact hplaced.transferred _ (mem_append_right _ mem_cons_self)

/-- The registers that a call needs are among those that are reported as used. -/
theorem mem_used (args : List (Option Reg)) (link : Option Reg) :
    (∀ i p, i < args.length → t.catalog.params[i]? = some p → p ∈ (t.placeArgs args link).2) ∧
      (link.isSome = true → some t.link ∈ (t.placeArgs args link).2) := by
  rw [placeArgs_eq]
  constructor
  · intro i p hi hp
    have hmem : (p, args[i]) ∈ t.transfers args link := mem_append_left _ (mem_of_getElem?
      (getElem?_zip_eq_some.mpr ⟨hp, getElem?_eq_getElem hi⟩))
    exact mem_map_of_mem hmem
  · intro h
    have hmem : (some t.link, link) ∈ t.transfers args link := by
      rw [transfers, if_pos h]
      exact mem_append_right _ mem_cons_self
    exact mem_map_of_mem hmem

end Target

/-- The call instruction comes first, and reads the registers that are reported as used. -/
theorem Arch.fill_call {a : Arch} {s : Supply} {x : Node} {tpl : Template} {b : Binding}
    (h : (a.make s).1.catalog.find? x = some (tpl, b)) (hx : x.head = .call) {leaves : List Leaf}
    {dst : Option Reg} {used : List (Option Reg)} {st st' : Selection.State}
    (hfill : Selection.fill x tpl leaves dst used tpl.recipes st = .ok () st') :
    ∃ i code, st'.code = st.code ++ i :: code ∧ a.callWord.toList <+: i.text.toList ∧
      used ⊆ i.reads := by
  obtain ⟨r, rest, q, parts, hrecipes, hcall, hvalue, hparts, hword⟩ := exists_call_recipe h hx
  obtain ⟨code, hcode, rfl⟩ := Selection.fill_eq_ok_iff.mp hfill
  rw [hrecipes, filter_cons_of_pos (by simp [Recipe.isKept, hvalue])] at hcode
  obtain ⟨i, code, hi, -, rfl⟩ := forall₂_cons_left_iff.mp hcode
  obtain ⟨d, dests, hd, -, rfl⟩ := Selection.of_instance? hi
  refine ⟨_, code, rfl, ?_, fun u hu => ?_⟩
  · rw [hparts] at hd
    have htext : q.toList <+: d.text.toList := by
      simpa [Selection.Draft.say] using
        Selection.Draft.text_foldlM (d := ({} : Selection.Draft).say q) hd
    exact hword.trans htext
  · show u ∈ (if r.isCall = true then _ else _)
    rw [if_pos hcall]
    exact Selection.mem_withRegs_iff.mpr (.inr hu)

/-- Caller and callee agree on arguments and on the stack, for any number of arguments whose bytes can
be counted by a word. -/
theorem Target.call_agrees (a : Arch) (s₀ : Supply) {t : Target} (ht : t = (a.make s₀).1)
    {args : List (Option Reg)} {link : Option Reg} (hargs : ∀ r ∈ args, t.Virtual r)
    (hlink : link.isSome = true → t.Virtual link)
    (hroom : args.length * t.dialect.stackStep < 2 ^ 63)
    {s s' s₁ s₂ : Supply} (hs : (a.make s₀).2.Grows s) {name : String} {nested : Bool} {f : Frame}
    (hf : t.newFrame name args.length nested s = (f, s')) (hs₁ : s'.Grows s₁) {start : Code}
    {saved : List (Option Reg)} (hstart : t.prologue f s₁ = (start, saved, s₂)) (size : Int64)
    (body : Code) (result : Bool) {place : Code} {used : List (Option Reg)}
    (hplace : t.placeArgs args link = (place, used)) :
    -- the finished function begins with the frame set up
    (∃ rest, t.finish { f with size } (start ++ (body ++ t.epilogue saved result)) =
      t.setup { f with size } start ++ rest) ∧
    -- the call reads the registers it needs
    ((∀ i p, i < args.length → t.catalog.params[i]? = some p → p ∈ used) ∧
      (link.isSome = true → some t.link ∈ used) ∧
      ∀ x tpl b leaves dst st st', x.head = .call → t.catalog.find? x = some (tpl, b) →
        Selection.fill x tpl leaves dst used tpl.recipes st = .ok () st' →
        ∃ i code, st'.code = st.code ++ i :: code ∧ a.callWord.toList <+: i.text.toList ∧
          used ⊆ i.reads) ∧
    ∀ {Mem : Type} (M : Memory Mem) (m : Machine Mem) (ret : Int64),
      Runs M a t.catalog.reg? place m fun m₁ =>
        ((m.regs (t.catalog.reg? a.spName)).toInt % 16 = 0 →
          (m₁.regs (t.catalog.reg? a.spName)).toInt % 16 = 0) ∧
        (∀ m₂ : Machine Mem, m₂.regs (t.catalog.reg? a.spName) = m₁.regs (t.catalog.reg? a.spName) →
          Runs M a t.catalog.reg? (t.removeArgs args) m₂ fun m₃ =>
            m₃.regs (t.catalog.reg? a.spName) = m.regs (t.catalog.reg? a.spName)) ∧
        Runs M a t.catalog.reg? (t.setup { f with size } start) (call M a t.catalog.reg? ret m₁)
          fun m₂ => Received M f nested args link m m₂ := by
  have hfollows : t.Follows a := ht ▸ a.follows_make s₀
  obtain ⟨rs, parents, hframed⟩ := t.newFrame_framed name args.length nested s
  rw [hf] at hframed
  have hfresh : ∀ s'' r, s.Made s'' r → t.catalog.isMachine r = false := fun s'' r hr =>
    ht ▸ Arch.isMachine_of_made (hr.mono hs (.refl _))
  refine ⟨?_, ⟨?_, ?_, ?_⟩, fun M m ret => ?_⟩
  · refine ⟨_, finish_eq ?_ ?_⟩
    · have hstart' : start = (t.prologue f s₁).1 := by rw [hstart]
      obtain ⟨ws, hcode, -⟩ := hframed.prologue_eq s₁
      rw [hstart', hcode]
      rfl
    · exact append_ne_nil_of_right_ne_nil _ (append_ne_nil_of_right_ne_nil _ nofun)
  · have h := (t.mem_used args link).1
    rwa [hplace] at h
  · have h := (t.mem_used args link).2
    rwa [hplace] at h
  · intro x tpl b leaves dst st st' hx hfind hfill
    rw [ht] at hfind
    exact Arch.fill_call hfind hx hfill
  · have hrun : place = (t.placeArgs args link).1 := by rw [hplace]
    have hset : start = (t.prologue f s₁).1 := by rw [hstart]
    rw [hrun, hset]
    refine runs_placeArgs hfollows hargs hlink hroom fun m₁ hplaced =>
      ⟨hplaced.aligned hfollows, fun m₂ hsp => ?_, ?_⟩
    · refine runs_removeArgs hfollows hroom fun m₃ h₃ => ?_
      rw [h₃, hsp, hplaced.sp]
      grind
    · refine hframed.runs_setup hfollows hfresh hs₁ _ ret fun m₂ hfp hload hregs => ⟨?_, ?_⟩
      · intro i r hr
        obtain hi | hi := Nat.lt_or_ge i t.regParams
        · exact hframed.param_inReg hplaced (fun p hp => hregs p (mem_append_left _ hp)) hr hi
        · exact hframed.param_onStack hfollows hroom hplaced hfp hload hr hi
      · rintro rfl l rfl
        exact hframed.parent_received hplaced fun r hr =>
          hregs _ (mem_append_right _ (mem_map_of_mem hr))

/-- The case of nine arguments and a link, where three arguments go on the stack and one place is left
free. -/
theorem Target.call_agrees_nine :
    let t := (Arch.amd64.make {}).1
    let s := (Arch.amd64.make {}).2
    let args : List (Option Reg) := (List.range 9).map fun i => some ⟨s.pool, s.regs + i, ""⟩
    let link : Option Reg := some ⟨s.pool, s.regs + 9, ""⟩
    let made := t.newFrame "inner" args.length true { s with regs := s.regs + 10 }
    let m : Machine (Int64 → Int64) := { regs := fun r => Int64.ofNat (r.elim 0 Reg.id), mem := 0 }
    Runs Memory.separate .amd64 t.catalog.reg? (t.placeArgs args link).1 m fun m₁ =>
      Runs Memory.separate .amd64 t.catalog.reg?
        (t.setup { made.1 with size := 24 } (t.prologue made.1 made.2).1)
        (call Memory.separate .amd64 t.catalog.reg? 0 m₁)
        fun m₂ => Received Memory.separate made.1 true args link m m₂ := by
  intro t s args link made m
  have hmade : ∀ i, i < 10 → t.Virtual (some ⟨s.pool, s.regs + i, ""⟩) := fun i hi => by
    have h : s.Made { s with regs := s.regs + 10 } ⟨s.pool, s.regs + i, ""⟩ :=
      ⟨rfl, rfl, Nat.le_add_right _ _, Nat.add_lt_add_left hi _⟩
    exact ⟨_, rfl, Arch.isMachine_of_made h⟩
  have hargs : ∀ r ∈ args, t.Virtual r := by
    intro r hr
    obtain ⟨i, hi, rfl⟩ := mem_map.mp hr
    exact hmade i (Nat.lt_succ_of_lt (mem_range.mp hi))
  have hgrows : (Arch.amd64.make {}).2.Grows { s with regs := s.regs + 10 } :=
    ⟨rfl, Nat.le_add_right _ _⟩
  have hroom : args.length * t.dialect.stackStep < 2 ^ 63 := by
    rw [show t.dialect = Arch.amd64.dialect from Arch.dialect_make .amd64 {}]
    decide
  have heta {α β γ : Type} (p : α × β × γ) : p = (p.1, p.2.1, p.2.2) := rfl
  have h := call_agrees .amd64 {} rfl hargs (fun _ => hmade 9 (by decide)) hroom hgrows
    (Prod.mk.eta (p := made)).symm (.refl made.2) (heta (t.prologue made.1 made.2)) 24 [] false
    (Prod.mk.eta (p := t.placeArgs args link)).symm
  exact (h.2.2 Memory.separate m 0).mono fun m₁ h₁ => h₁.2.2

end Codegen
