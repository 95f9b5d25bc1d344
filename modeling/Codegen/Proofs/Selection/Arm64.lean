import Codegen.Proofs.Assembly.Arm64
import Codegen.Proofs.Selection.Faithful
import Codegen.Target.Arm64

/-!
# The templates of the arm64 target

Every template of the target is faithful to the instructions of the machine (`values_faithful`,
`actions_faithful`). No register is for scratch.
-/

namespace Codegen.Target.Arm64

open Semantics Assembly Assembly.Arm64 TemplateSource List

variable {reg? : String → Option Reg} {scratch : List String}

/-! ### Operations -/

theorem isName_of_mem_arithNames {p : String × Arith} (h : p ∈ arithNames) : Part.IsName p.1 := by
  revert p
  simp [arithNames, Part.IsName, Skeleton.mark]

theorem operands?_of_mem_arithNames {p : String × Arith} (h : p ∈ arithNames)
    {ts : List Token} {d x : Option Reg} {y : Arm64.Operand} (hts : operand? ts = some y)
    (hy : p.2.takes y = true) :
    operands? p.1 (.reg d :: .chr ',' :: .chr ' ' :: .reg x :: .chr ',' :: .chr ' ' :: ts) =
      some (.arith p.2 d x y) := by
  have hread : ∀ p ∈ arithNames, ∀ ts, operands? p.1 ts = arith? p.2 ts := by
    simp [operands?, arithNames, List.lookup_cons]
  rw [hread p h, arith?]
  simp only [Arm64.reg?, Option.bind_eq_bind, Option.bind_some, hts, hy, if_true]

/-- An operation on a register and another source. -/
theorem computes_arith {o : Op} {A : Arith} {name : String} {cs : List Char} {q : Expr}
    (hname : (name, A) ∈ arithNames) (hdoes : Does A.apply o)
    (hq : ∀ (x : Node) (a d : Reg), Leaf.ForAll (fun _ => True) q.leafKinds fun leaves =>
      ∃ ss ts y,
        Part.symbols? reg? (.temp :: q.leafKinds) (cs.map Skeleton.mark) =
          some (.chr ' ' :: ss) ∧
        Selection.tokens? x (.temp (some a) :: leaves) (some d) ss = some
          (.reg (some d) :: .chr ',' :: .chr ' ' :: .reg (some a) :: .chr ',' :: .chr ' ' :: ts) ∧
        operand? ts = some y ∧ A.takes y = true ∧
        ∀ {Mem : Type} (I : Interp Mem) (m : Machine Mem),
          Arm64.value m y = (q.denote I m.mem (leaves.map (Leaf.value I m.store))).1) :
    Computes arm64 reg? scratch
      (TemplateSource.value (bin o reg q) [op (name ++ String.ofList cs)]) (bin o reg q) := by
  refine ⟨by simp [TemplateSource.value, op], fun x d leaves _ h => ?_⟩
  obtain ⟨a, leaves, rfl, -, h⟩ := Leaf.exists_temp h
  obtain ⟨ss, ts, y, hss, hts, hy, htakes, hv⟩ :=
    (hq x a d).of_settled (h.imp fun k l hkl => hkl.mono fun _ _ => trivial)
  refine ⟨_, readAll_cons_named rfl (isName_of_mem_arithNames hname)
    hss hts (operands?_of_mem_arithNames hname hy htakes) rfl, fun I m hd => ?_⟩
  obtain ⟨w, hw, happ⟩ := hd.2.2.exists_eval I
  refine ⟨_, Isa.run_singleton _ _, ?_, rfl, fun r hr _ => m.regs_setReg_of_ne hr _⟩
  rw [← hdoes _ _ _ hw] at happ
  rw [m.regs_setReg_self, hv I m]
  exact happ.symm

theorem does_lsl : Does Arith.lsl.apply .shl :=
  (does_shift (g := Arith.lsl.apply) (fun _ _ => rfl) fun _ _ => rfl).1

theorem does_lsr : Does Arith.lsr.apply .shr :=
  (does_shift (g := Arith.lsr.apply) (fun _ _ => rfl) fun _ _ => rfl).1

theorem does_asr : Does Arith.asr.apply .sar :=
  (does_shift (g := Arith.asr.apply) (fun _ _ => rfl) fun _ _ => rfl).1

theorem exists_of_mem_arith {a : Op × String} (ha : a ∈ arith) :
    ∃ A : Arith, (a.2, A) ∈ arithNames ∧ Does A.apply a.1 := by
  simp only [arith, mem_cons, not_mem_nil, or_false] at ha
  rcases ha with rfl | rfl | rfl | rfl | rfl | rfl | rfl | rfl | rfl | rfl
  · exact ⟨.add, by simp [arithNames], fun x y w h => Option.some.inj h⟩
  · exact ⟨.sub, by simp [arithNames], fun x y w h => Option.some.inj h⟩
  · exact ⟨.mul, by simp [arithNames], fun x y w h => Option.some.inj h⟩
  · refine ⟨.sdiv, by simp [arithNames], fun x y w h => ?_⟩
    simp only [Op.eval] at h
    split at h
    · cases h
    · rename_i hy
      exact (if_neg hy).trans (Option.some.inj h)
  · exact ⟨.and, by simp [arithNames], fun x y w h => Option.some.inj h⟩
  · exact ⟨.orr, by simp [arithNames], fun x y w h => Option.some.inj h⟩
  · exact ⟨.eor, by simp [arithNames], fun x y w h => Option.some.inj h⟩
  · exact ⟨.lsl, by simp [arithNames], does_lsl⟩
  · exact ⟨.lsr, by simp [arithNames], does_lsr⟩
  · exact ⟨.asr, by simp [arithNames], does_asr⟩

/-- Operators that take a constant are among the others. -/
theorem exists_of_mem_arithImm {a : Op × String} (ha : a ∈ arithImm) :
    ∃ A : Arith, (a.2, A) ∈ arithNames ∧ Does A.apply a.1 ∧ ∀ v, A.takes (.imm v) = true := by
  simp only [arithImm, mem_cons, not_mem_nil, or_false] at ha
  rcases ha with rfl | rfl | rfl | rfl | rfl
  · exact ⟨.add, by simp [arithNames], fun x y w h => Option.some.inj h, fun _ => rfl⟩
  · exact ⟨.sub, by simp [arithNames], fun x y w h => Option.some.inj h, fun _ => rfl⟩
  · exact ⟨.lsl, by simp [arithNames], does_lsl, fun _ => rfl⟩
  · exact ⟨.lsr, by simp [arithNames], does_lsr, fun _ => rfl⟩
  · exact ⟨.asr, by simp [arithNames], does_asr, fun _ => rfl⟩

theorem computes_arith_reg {a : Op × String} (ha : a ∈ arith) : Computes arm64 reg? scratch
    (TemplateSource.value (bin a.1 reg reg) [op (a.2 ++ " ‹out›, ‹0›, ‹1›")]) (bin a.1 reg reg) := by
  obtain ⟨A, hname, hdoes⟩ := exists_of_mem_arith ha
  exact computes_arith hname hdoes fun x a d b _ =>
    ⟨_, [.reg (some b)], .reg (some b), rfl, rfl, rfl, by cases A <;> rfl, fun I m => rfl⟩

theorem computes_arith_num {a : Op × String} (ha : a ∈ arithImm) : Computes arm64 reg? scratch
    (TemplateSource.value (bin a.1 reg num) [op (a.2 ++ " ‹out›, ‹0›, #‹1›")]) (bin a.1 reg num) := by
  obtain ⟨A, hname, hdoes, htakes⟩ := exists_of_mem_arithImm ha
  exact computes_arith hname hdoes fun x a d v =>
    ⟨_, [.chr '#', .int v], .imm v, rfl, rfl, rfl, htakes v, fun I m => rfl⟩

theorem values_faithful {x0 : Reg} (hx0 : reg? "X0" = some x0) :
    ∀ src ∈ values, src.Faithful arm64 reg? scratch := by
  have hcopy (kinds : List LeafKind) : Part.symbols? reg? kinds _ = some _ :=
    Part.symbols?_two ['M', 'O', 'V', ' '] ['o', 'u', 't'] [',', ' '] ['i', 'n', ':', 'X', '0'] rfl
      (by simp) (by simp) rfl (Part.fixedReg_of_eq hx0 .read)
  simp only [values, forall_mem_append, forall_mem_cons, forall_mem_map]
  refine ⟨⟨⟨⟨?num, ?lab, ?reg, ?mem, ?memOff, ?memLab, forall_mem_nil _⟩,
    fun a ha => computes_arith_reg ha⟩, fun a ha => computes_arith_num ha⟩,
    readable_call rfl rfl rfl (hcopy _), readable_call rfl rfl rfl (hcopy _), forall_mem_nil _⟩
  case num | lab | memLab | reg | memOff =>
    refine computes_of_exec rfl fun x d => ?_
    repeat intro _
    exact ⟨_, readAll_cons rfl rfl rfl rfl rfl, fun I m => rfl⟩
  case mem =>
    refine computes_of_exec rfl fun x d a _ => ⟨_, readAll_cons rfl rfl rfl rfl rfl, fun I m => ?_⟩
    show some (none, m.setReg (some d) (I.load m.mem (m.regs (some a) + 0))) = _
    rw [Int64.add_zero]
    rfl

/-! ### Conditional jumps -/

theorem isName_of_mem_jumpNames {p : String × Cond} (h : p ∈ jumpNames) : Part.IsName p.1 := by
  revert p
  simp [jumpNames, Part.IsName, Skeleton.mark]

theorem operands?_of_mem_jumpNames {p : String × Cond} (h : p ∈ jumpNames) (l : Option Label) :
    operands? p.1 [.lab l] = some (.bcc p.2 l) := by
  revert p
  simp [operands?, arithNames, jumpNames, List.lookup_cons]

theorem of_mem_conds {j : Cond × String} (hj : j ∈ conds) :
    ("B." ++ j.2, j.1) ∈ jumpNames ∧ j.1.isKnown = true := by
  simp only [conds, mem_cons, not_mem_nil, or_false] at hj
  rcases hj with rfl | rfl | rfl | rfl | rfl | rfl | rfl | rfl | rfl | rfl <;>
    simp [jumpNames, Cond.isKnown]

theorem jumpTemplates_faithful {j : Cond × String} (hj : j ∈ conds) :
    ∀ src ∈ jumpTemplates j, src.Faithful arm64 reg? scratch := by
  obtain ⟨hname, hc⟩ := of_mem_conds hj
  have hword := isName_of_mem_jumpNames hname
  have hread := operands?_of_mem_jumpNames hname
  simp only [jumpTemplates, forall_mem_cons]
  refine ⟨performs_compared hword hread ?jump ?num, performs_compared hword hread ?jump ?reg,
    forall_mem_nil _⟩
  case jump => exact fun I _ _ _ _ hm => exec_bcc hm hc
  case num =>
    exact fun x a v => ⟨.cmp (some a) (.imm v), fun _ _ => readAll_cons rfl rfl rfl rfl, fun I m => rfl⟩
  case reg =>
    exact fun x a b _ =>
      ⟨.cmp (some a) (.reg (some b)), fun _ _ => readAll_cons rfl rfl rfl rfl, fun I m => rfl⟩

/-! ### Statements -/

theorem actions_faithful : ∀ src ∈ actions, src.Faithful arm64 reg? scratch := by
  simp only [actions, forall_mem_append, forall_mem_cons, forall_mem_flatMap]
  refine ⟨⟨⟨?moveNum, ?moveLab, ?moveReg, ?moveMem, ?moveMemOff, ?moveAddNum, ?storeReg, ?storeOffReg,
    ?jumpLab, ?jumpReg, forall_mem_nil _⟩, fun j hj => jumpTemplates_faithful hj⟩, ?place,
    forall_mem_nil _⟩
  case moveNum | moveLab | moveReg | moveMemOff | moveAddNum | storeOffReg =>
    refine performs_of_exec fun x _ => ⟨fun h => absurd h Bool.false_ne_true, ?_⟩
    repeat intro _
    exact ⟨_, readAll_cons rfl rfl rfl rfl rfl, fun I m => ⟨_, rfl, rfl⟩⟩
  case moveMem =>
    refine performs_of_exec fun x _ => ⟨fun h => absurd h Bool.false_ne_true, fun d _ a _ =>
      ⟨_, readAll_cons rfl rfl rfl rfl rfl, fun I m => ⟨_, rfl, ?_⟩⟩⟩
    show (m.setReg (some d) (I.load m.mem (m.regs (some a) + 0))).store = _
    rw [Int64.add_zero]
    rfl
  case storeReg =>
    refine performs_of_exec fun x _ => ⟨fun h => absurd h Bool.false_ne_true, fun a _ b _ =>
      ⟨_, readAll_cons rfl rfl rfl rfl rfl, fun I m => ⟨_, rfl, ?_⟩⟩⟩
    show (⟨m.regs, I.store m.mem (m.regs (some a) + 0) (m.regs (some b)), []⟩ : Store _) = _
    rw [Int64.add_zero]
    rfl
  case jumpLab | jumpReg =>
    refine performs_of_exec fun x hx => ⟨fun _ => exists_branchDests_jump hx, ?_⟩
    repeat intro _
    exact ⟨_, readAll_cons rfl rfl rfl rfl rfl, fun I m => ⟨_, rfl, rfl⟩⟩
  case place =>
    refine performs_of_exec fun x hx => ⟨fun h => absurd h Bool.false_ne_true, ?_⟩
    obtain ⟨l, rfl⟩ := exists_place hx
    exact ⟨_, readAll_cons rfl rfl rfl rfl rfl, fun I m => ⟨_, rfl, rfl⟩⟩

end Codegen.Target.Arm64
